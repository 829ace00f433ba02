/-
# Decoding escapes (`JsonUtil.decodeUnicode`)

The decoder runs over a string with one cursor.  A backslash takes the next unit with it,
and a backslash and a `u` take four more, which have to be hexadecimal digits.  It undoes
every mixture of the escapes that it knows.

The cursor is compared with the length of the string only between two tokens.  A string
that ends inside an escape is therefore not refused like other malformed ones but runs
past its end.
-/

import StudyNotes.Lib.CodeUnits

namespace StudyNotes.Json

open StudyNotes.CodeUnits

/-- The exceptions of `decodeUnicode`. -/
inductive DecodeError
  | illegalArgument (message : String)
  | stringIndexOutOfBounds
deriving DecidableEq, Repr

/-- The message for a unit that should be a hexadecimal digit. -/
def malformed : DecodeError := .illegalArgument "Malformed   \\uxxxx   encoding."

/-- The loop over `i in 0..3`: that many digits are added to `value`. -/
def readDigits : ℕ → ℕ → Units → Except DecodeError (ℕ × Units)
  | 0, value, rest => .ok (value, rest)
  | _ + 1, _, [] => .error .stringIndexOutOfBounds
  | n + 1, value, aChar :: rest =>
    match hexValue aChar with
    | some digit => readDigits n (value * 16 + digit) rest
    | none => .error malformed

theorem length_readDigits {n value value' : ℕ} {text rest : Units}
    (h : readDigits n value text = .ok (value', rest)) : rest.length ≤ text.length := by
  fun_induction readDigits n value text with
  | case1 value text =>
      cases h
      exact Nat.le_refl _
  | case2 value => cases h
  | case3 value n aChar text digit hdigit ih => exact Nat.le_succ_of_le (ih h)
  | case4 value n aChar text hdigit => cases h

/-- A unit after a backslash, other than `u`. -/
def unescape (aChar : UInt16) : UInt16 :=
  if aChar = unit 't' then unit '\t'
  else if aChar = unit 'r' then unit '\r'
  else if aChar = unit 'n' then unit '\n'
  else if aChar = unit 'f' then 0x000C
  else aChar

/-- The loop of `decodeUnicode` over what is left of the string. -/
def decodeFrom (outBuffer : Units) : Units → Except DecodeError Units
  | [] => .ok outBuffer
  | aChar :: rest =>
    if aChar = unit '\\' then
      match rest with
      | [] => .error .stringIndexOutOfBounds
      | aChar :: rest =>
        if aChar = unit 'u' then
          match _h : readDigits 4 0 rest with
          | .ok (value, rest') => decodeFrom (outBuffer ++ [UInt16.ofNat value]) rest'
          | .error e => .error e
        else decodeFrom (outBuffer ++ [unescape aChar]) rest
    else decodeFrom (outBuffer ++ [aChar]) rest
termination_by text => text.length
decreasing_by
  · have := length_readDigits _h
    rw [List.length_cons, List.length_cons]
    omega
  · rw [List.length_cons, List.length_cons]
    omega
  · rw [List.length_cons]
    omega

/-- `decodeUnicode(theString)`. -/
def decodeUnicode (theString : Units) : Except DecodeError Units := decodeFrom [] theString

/-! ## What is decoded -/

/-- The ways to write one unit. -/
inductive EncodesUnit : Units → UInt16 → Prop
  | itself {c : UInt16} (h : c ≠ unit '\\') : EncodesUnit [c] c
  | escaped {c : UInt16} (h : c ∉ [unit 'u', unit 't', unit 'r', unit 'n', unit 'f']) :
      EncodesUnit [unit '\\', c] c
  | tab : EncodesUnit [unit '\\', unit 't'] (unit '\t')
  | carriageReturn : EncodesUnit [unit '\\', unit 'r'] (unit '\r')
  | lineFeed : EncodesUnit [unit '\\', unit 'n'] (unit '\n')
  | formFeed : EncodesUnit [unit '\\', unit 'f'] 0x000C
  | digits {a b c d u : UInt16} {va vb vc vd : ℕ} (ha : hexValue a = some va)
      (hb : hexValue b = some vb) (hc : hexValue c = some vc) (hd : hexValue d = some vd)
      (hu : u.toNat = ((va * 16 + vb) * 16 + vc) * 16 + vd) :
      EncodesUnit [unit '\\', unit 'u', a, b, c, d] u

/-- `Encodes e s`: the units of `s` are written one after the other, each in one of its
ways. -/
inductive Encodes : Units → Units → Prop
  | nil : Encodes [] []
  | cons {w e s : Units} {c : UInt16} (hunit : EncodesUnit w c) (hrest : Encodes e s) :
      Encodes (w ++ e) (c :: s)

/-- A written unit is decoded, and the cursor is behind it. -/
theorem decodeFrom_unit {w : Units} {c : UInt16} (h : EncodesUnit w c) (out rest : Units) :
    decodeFrom out (w ++ rest) = decodeFrom (out ++ [c]) rest := by
  cases h with
  | itself h =>
      rw [List.singleton_append, decodeFrom.eq_def]
      simp only [h, if_false]
  | escaped h =>
      simp only [List.mem_cons, List.not_mem_nil, or_false, not_or] at h
      obtain ⟨hu, ht, hr, hn, hf⟩ := h
      rw [List.cons_append, List.singleton_append, decodeFrom.eq_def]
      simp only [if_true, hu, if_false, unescape, ht, hr, hn, hf]
  | tab => rw [List.cons_append, List.singleton_append, decodeFrom.eq_def]; rfl
  | carriageReturn => rw [List.cons_append, List.singleton_append, decodeFrom.eq_def]; rfl
  | lineFeed => rw [List.cons_append, List.singleton_append, decodeFrom.eq_def]; rfl
  | formFeed => rw [List.cons_append, List.singleton_append, decodeFrom.eq_def]; rfl
  | @digits a b c' d _ va vb vc vd ha hb hc hd hu =>
      have hread : readDigits 4 0 (a :: b :: c' :: d :: rest) = .ok (c.toNat, rest) := by
        simp only [readDigits, ha, hb, hc, hd, hu]
        rw [Nat.zero_mul, Nat.zero_add]
      simp only [List.cons_append, List.nil_append]
      rw [decodeFrom.eq_def]
      simp only [if_true]
      split
      · rename_i value rest' hread'
        rw [hread] at hread'
        cases hread'
        rw [UInt16.ofNat_toNat]
      · rename_i e hread'
        rw [hread] at hread'
        cases hread'

theorem decodeFrom_of_encodes {e s : Units} (h : Encodes e s) (out : Units) :
    decodeFrom out e = .ok (out ++ s) := by
  induction h generalizing out with
  | nil => rw [decodeFrom, List.append_nil]
  | cons hunit hrest ih => rw [decodeFrom_unit hunit, ih, List.append_assoc, List.singleton_append]

/-- Decoding undoes every encoding. -/
theorem decodeUnicode_encodes {e s : Units} (h : Encodes e s) : decodeUnicode e = .ok s :=
  decodeFrom_of_encodes h []

/-- A tab as escape, a backslash, half of a surrogate pair in digits of both cases, and a
letter. -/
theorem decodeUnicode_encodes_mixture :
    decodeUnicode ("\\t\\\\\\uD8fFa".toList.map unit) =
      .ok [unit '\t', unit '\\', 0xD8FF, unit 'a'] := by
  apply decodeUnicode_encodes
  have hhalf : EncodesUnit [unit '\\', unit 'u', unit 'D', unit '8', unit 'f', unit 'F'] 0xD8FF :=
    .digits rfl rfl rfl rfl rfl
  have hletter : Encodes ([unit 'a'] ++ []) [unit 'a'] := .cons (.itself (by decide)) .nil
  exact .cons .tab (.cons (.escaped (by decide)) (.cons hhalf hletter))

/-! ## What is refused -/

/-- A unit that starts no escape, a backslash with the unit after it, or a backslash, a `u`
and four digits. -/
inductive Token : Units → Prop
  | plain {c : UInt16} (h : c ≠ unit '\\') : Token [c]
  | escape {c : UInt16} (h : c ≠ unit 'u') : Token [unit '\\', c]
  | digits {a b c d : UInt16} (ha : IsHex a) (hb : IsHex b) (hc : IsHex c) (hd : IsHex d) :
      Token [unit '\\', unit 'u', a, b, c, d]

/-- Every escape is complete. -/
inductive WellFormed : Units → Prop
  | nil : WellFormed []
  | cons {w text : Units} (htoken : Token w) (hrest : WellFormed text) : WellFormed (w ++ text)

/-- The beginning of an escape. -/
inductive Fragment : Units → Prop
  | backslash : Fragment [unit '\\']
  | digits {ds : Units} (hhex : ∀ d ∈ ds, IsHex d) (hshort : ds.length < 4) :
      Fragment (unit '\\' :: unit 'u' :: ds)

/-- The string ends inside an escape. -/
def CutOff (text : Units) : Prop :=
  ∃ before tail, WellFormed before ∧ Fragment tail ∧ text = before ++ tail

/-- The decoder returns exactly on the well-formed strings, and refuses all others in the
same way. -/
structure RefusesMalformed (text : Units) : Prop where
  returns_iff : (∃ out, decodeUnicode text = .ok out) ↔ WellFormed text
  refuses : ∀ e, decodeUnicode text = .error e → ∃ message, e = .illegalArgument message

theorem Token.exists_encodesUnit {w : Units} (h : Token w) : ∃ c, EncodesUnit w c := by
  cases h with
  | plain h => exact ⟨_, .itself h⟩
  | @escape c h =>
      by_cases hcontrol : c ∈ [unit 'u', unit 't', unit 'r', unit 'n', unit 'f']
      · simp only [List.mem_cons, List.not_mem_nil, or_false] at hcontrol
        rcases hcontrol with rfl | rfl | rfl | rfl | rfl
        · exact absurd rfl h
        · exact ⟨_, .tab⟩
        · exact ⟨_, .carriageReturn⟩
        · exact ⟨_, .lineFeed⟩
        · exact ⟨_, .formFeed⟩
      · exact ⟨c, .escaped hcontrol⟩
  | @digits a b c d ha hb hc hd =>
      obtain ⟨va, hva⟩ := Option.isSome_iff_exists.mp ha
      obtain ⟨vb, hvb⟩ := Option.isSome_iff_exists.mp hb
      obtain ⟨vc, hvc⟩ := Option.isSome_iff_exists.mp hc
      obtain ⟨vd, hvd⟩ := Option.isSome_iff_exists.mp hd
      have hlt : ((va * 16 + vb) * 16 + vc) * 16 + vd < 2 ^ 16 := by
        have hva' := hexValue_lt hva
        have hvb' := hexValue_lt hvb
        have hvc' := hexValue_lt hvc
        have hvd' := hexValue_lt hvd
        omega
      exact ⟨_, .digits hva hvb hvc hvd (UInt16.toNat_ofNat_of_lt hlt)⟩

theorem WellFormed.exists_encodes {text : Units} (h : WellFormed text) :
    ∃ s, Encodes text s := by
  induction h with
  | nil => exact ⟨[], .nil⟩
  | cons htoken hrest ih =>
      obtain ⟨c, hunit⟩ := htoken.exists_encodesUnit
      obtain ⟨s, hs⟩ := ih
      exact ⟨c :: s, .cons hunit hs⟩

theorem readDigits_of_short {ds : Units} (hhex : ∀ d ∈ ds, IsHex d) {n : ℕ}
    (hshort : ds.length < n) (value : ℕ) :
    readDigits n value ds = .error .stringIndexOutOfBounds := by
  induction ds generalizing n value with
  | nil =>
      cases n with
      | zero => exact absurd hshort (Nat.not_lt_zero _)
      | succ n => rfl
  | cons d ds ih =>
      cases n with
      | zero => exact absurd hshort (Nat.not_lt_zero _)
      | succ n =>
          obtain ⟨digit, hdigit⟩ := Option.isSome_iff_exists.mp (hhex d List.mem_cons_self)
          rw [readDigits, hdigit]
          exact ih (fun d' hd' => hhex d' (List.mem_cons_of_mem d hd'))
            (Nat.lt_of_succ_lt_succ hshort) _

theorem decodeFrom_fragment {tail : Units} (h : Fragment tail) (out : Units) :
    decodeFrom out tail = .error .stringIndexOutOfBounds := by
  cases h with
  | backslash =>
      rw [decodeFrom]
      rfl
  | digits hhex hshort =>
      rw [decodeFrom.eq_def]
      simp only [if_true]
      split
      · rename_i hread
        rw [readDigits_of_short hhex hshort] at hread
        cases hread
      · rename_i hread
        rw [readDigits_of_short hhex hshort] at hread
        cases hread
        rfl

theorem CutOff.decodeFrom_eq {text : Units} (h : CutOff text) (out : Units) :
    decodeFrom out text = .error .stringIndexOutOfBounds := by
  obtain ⟨before, tail, hbefore, htail, rfl⟩ := h
  induction hbefore generalizing out with
  | nil => exact decodeFrom_fragment htail out
  | cons htoken hrest ih =>
      obtain ⟨c, hunit⟩ := htoken.exists_encodesUnit
      rw [List.append_assoc, decodeFrom_unit hunit]
      exact ih _

theorem CutOff.cons {w text : Units} (htoken : Token w) (h : CutOff text) :
    CutOff (w ++ text) := by
  obtain ⟨before, tail, hbefore, htail, rfl⟩ := h
  exact ⟨w ++ before, tail, .cons htoken hbefore, htail, by rw [List.append_assoc]⟩

/-- The digits that are asked for are read, end too early, or have another unit among
them. -/
theorem readDigits_cases (n value : ℕ) (text : Units) :
    (∃ value' ds rest, text = ds ++ rest ∧ ds.length = n ∧ (∀ d ∈ ds, IsHex d) ∧
        readDigits n value text = .ok (value', rest)) ∨
      (text.length < n ∧ (∀ d ∈ text, IsHex d) ∧
        readDigits n value text = .error .stringIndexOutOfBounds) ∨
      readDigits n value text = .error malformed := by
  fun_induction readDigits n value text with
  | case1 value text => exact Or.inl ⟨value, [], text, rfl, rfl, by simp, rfl⟩
  | case2 value n => exact Or.inr (Or.inl ⟨Nat.succ_pos _, by simp, rfl⟩)
  | case3 value n aChar text digit hdigit ih =>
      have hhex : IsHex aChar := by rw [IsHex, hdigit]; rfl
      rcases ih with ⟨value', ds, rest, rfl, hlength, hds, hread⟩ | ⟨hshort, hds, hread⟩ | hread
      · exact Or.inl ⟨value', aChar :: ds, rest, rfl, by rw [List.length_cons, hlength],
          List.forall_mem_cons.mpr ⟨hhex, hds⟩, hread⟩
      · exact Or.inr (Or.inl ⟨Nat.succ_lt_succ hshort, List.forall_mem_cons.mpr ⟨hhex, hds⟩, hread⟩)
      · exact Or.inr (Or.inr hread)
  | case4 value n aChar text hdigit => exact Or.inr (Or.inr rfl)

/-- The ways in which the decoder can end on a string. -/
inductive Ends (text : Units) : Except DecodeError Units → Prop
  | returns (out : Units) (h : WellFormed text) : Ends text (.ok out)
  | overruns (h : CutOff text) : Ends text (.error .stringIndexOutOfBounds)
  | refuses : Ends text (.error malformed)

/-- A token before the string changes nothing. -/
theorem Ends.token {w rest : Units} {result : Except DecodeError Units} (htoken : Token w)
    (h : Ends rest result) : Ends (w ++ rest) result := by
  cases h with
  | returns out hwell => exact .returns out (.cons htoken hwell)
  | overruns hcut => exact .overruns (hcut.cons htoken)
  | refuses => exact .refuses

theorem ends_decodeFrom (out text : Units) : Ends text (decodeFrom out text) := by
  fun_induction decodeFrom out text with
  | case1 out => exact .returns out .nil
  | case2 out => exact .overruns ⟨[], _, .nil, .backslash, rfl⟩
  | case3 out rest value rest' hread ih =>
      rcases readDigits_cases 4 0 rest with
        ⟨value', ds, rest'', rfl, hlength, hds, hread'⟩ | ⟨-, -, hread'⟩ | hread'
      · rw [hread] at hread'
        cases hread'
        obtain ⟨a, b, c, d, rfl⟩ := List.length_eq_four.mp hlength
        simp only [List.forall_mem_cons] at hds
        exact ih.token (.digits hds.1 hds.2.1 hds.2.2.1 hds.2.2.2.1)
      · rw [hread] at hread'
        cases hread'
      · rw [hread] at hread'
        cases hread'
  | case4 out rest e hread =>
      rcases readDigits_cases 4 0 rest with
        ⟨value', ds, rest'', -, -, -, hread'⟩ | ⟨hshort, hds, hread'⟩ | hread'
      · rw [hread] at hread'
        cases hread'
      · rw [hread] at hread'
        cases hread'
        exact .overruns ⟨[], _, .nil, .digits hds hshort, rfl⟩
      · rw [hread] at hread'
        cases hread'
        exact .refuses
  | case5 out aChar rest hu ih => exact ih.token (.escape hu)
  | case6 out aChar rest hplain ih => exact ih.token (.plain hplain)

/-- Malformed strings are refused in one way exactly when the string does not end inside an
escape. -/
theorem refusesMalformed_iff (text : Units) : RefusesMalformed text ↔ ¬ CutOff text := by
  constructor
  · intro hlaw hcut
    obtain ⟨message, hmessage⟩ := hlaw.refuses _ (hcut.decodeFrom_eq [])
    cases hmessage
  · intro hcut
    have hends : Ends text (decodeUnicode text) := ends_decodeFrom [] text
    have hreturns : WellFormed text → ∃ out, decodeUnicode text = .ok out := by
      intro hwell
      obtain ⟨s, hs⟩ := hwell.exists_encodes
      exact ⟨s, decodeFrom_of_encodes hs []⟩
    constructor
    · refine ⟨fun ⟨out, hout⟩ => ?_, hreturns⟩
      rw [hout] at hends
      cases hends with
      | returns _ hwell => exact hwell
    · intro e he
      rw [he] at hends
      cases hends with
      | overruns hcut' => exact absurd hcut' hcut
      | refuses => exact ⟨_, rfl⟩

/-- A backslash at the end of the string. -/
theorem not_refusesMalformed_backslash : ¬ ∀ text : Units, RefusesMalformed text := by
  intro hlaw
  have hcut : CutOff [unit '\\'] := ⟨[], _, .nil, .backslash, rfl⟩
  obtain ⟨message, hmessage⟩ := (hlaw [unit '\\']).refuses _ (hcut.decodeFrom_eq [])
  cases hmessage

end StudyNotes.Json
