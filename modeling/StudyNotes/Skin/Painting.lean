/-
# What a skin does to a text view (`SkinView.applySkin`)

The loop over the recorded attributes sets all four compound drawables of a text view in
every turn, to the drawable of this turn's attribute on its side and to nothing on the
others, and calls the `applySkin` of the view's own in every turn.  So only the drawable of
the last attribute is left, and the view's own method runs as often as there are
attributes.  Everything is as recorded exactly when the view has no drawable beyond the
recorded ones, a second attribute comes with drawables that are missing in the skin, and a
view with a method of its own has just one attribute.
-/

import Mathlib.Data.List.Nodup
import StudyNotes.Skin.Resources

namespace StudyNotes.Skin

variable {δ : Type}

/-! ## Targets -/

inductive Side
  | left
  | top
  | right
  | bottom
deriving DecidableEq, Repr

/-- What an attribute of a text view changes. -/
inductive Target
  | background
  | textColor
  | side (s : Side)
deriving DecidableEq, Repr

def Side.index : Side → ℕ
  | .left => 0
  | .top => 1
  | .right => 2
  | .bottom => 3

/-- The target of an attribute, under its plain name or the `Compat` one. -/
def target (attributeName : String) : Option Target :=
  match attributeName with
  | "background" => some .background
  | "textColor" => some .textColor
  | "drawableLeft" | "drawableLeftCompat" => some (.side .left)
  | "drawableTop" | "drawableTopCompat" => some (.side .top)
  | "drawableRight" | "drawableRightCompat" => some (.side .right)
  | "drawableBottom" | "drawableBottomCompat" => some (.side .bottom)
  | _ => none

/-- The drawable that a text view shows on a side. -/
def View.shown (view : View δ) (side : Side) : Option δ :=
  view.compoundDrawables[side.index]?.join

/-- The attributes all have targets, and these are different. -/
structure DistinctTargets (pairs : List SkinPair) : Prop where
  isSome : ∀ pair ∈ pairs, (target pair.attributeName).isSome
  nodup : (pairs.map fun pair => target pair.attributeName).Nodup

/-! ## The law -/

/-- Every recorded attribute is in effect, nothing else has changed, in whichever order the
attributes were recorded, and the view's own method has run once. -/
structure Applied (r : SkinResources δ) (v : SkinView δ) : Prop where
  background : ∀ pair ∈ v.mSkinPairs, target pair.attributeName = some .background →
    (v.applySkin r).view.background = v.view.background.orElse (r.getBackground pair.resId)
  textColor : ∀ pair ∈ v.mSkinPairs, target pair.attributeName = some .textColor →
    (v.applySkin r).view.textColor = some (r.getColor pair.resId)
  paired : ∀ pair ∈ v.mSkinPairs, ∀ side, target pair.attributeName = some (.side side) →
    (v.applySkin r).view.shown side = r.getDrawable pair.resId
  unpaired : ∀ side, (∀ pair ∈ v.mSkinPairs, target pair.attributeName ≠ some (.side side)) →
    (v.applySkin r).view.shown side = v.view.shown side
  permuted : ∀ pairs, pairs.Perm v.mSkinPairs →
    ({ v with mSkinPairs := pairs }.applySkin r).view = (v.applySkin r).view
  support : v.view.isSkinViewSupport = true →
    (v.applySkin r).view.supportRuns = v.view.supportRuns + 1

/-- The views and attributes for which one turn does not undo another. -/
structure Undisturbed (r : SkinResources δ) (v : SkinView δ) : Prop where
  single : v.view.isSkinViewSupport = true → v.mSkinPairs.length = 1
  bare : v.mSkinPairs ≠ [] → ∀ side,
    (∀ pair ∈ v.mSkinPairs, target pair.attributeName ≠ some (.side side)) →
      v.view.shown side = none
  missing : 2 ≤ v.mSkinPairs.length → ∀ pair ∈ v.mSkinPairs, ∀ side,
    target pair.attributeName = some (.side side) → r.getDrawable pair.resId = none

/-! ## One turn -/

/-- The drawables that a turn for this target sets. -/
def drawables (r : SkinResources δ) (t : Target) (resId : ℤ) : List (Option δ) :=
  [Side.left, .top, .right, .bottom].map fun side =>
    if t = .side side then r.getDrawable resId else none

/-- A turn of the loop, by target. -/
def paint (r : SkinResources δ) (view : View δ) (t : Target) (resId : ℤ) : View δ where
  isImageView := view.isImageView
  isTextView := view.isTextView
  isSkinViewSupport := view.isSkinViewSupport
  background :=
    if t = .background then view.background.orElse (r.getBackground resId) else view.background
  image := view.image
  textColor :=
    if t = .textColor ∧ view.isTextView = true then some (r.getColor resId) else view.textColor
  compoundDrawables := if view.isTextView then drawables r t resId else view.compoundDrawables
  support := if view.isSkinViewSupport then some r else view.support
  supportRuns := if view.isSkinViewSupport then view.supportRuns + 1 else view.supportRuns

theorem applyPair_eq_paint {pair : SkinPair} {t : Target}
    (h : target pair.attributeName = some t) (r : SkinResources δ) (view : View δ) :
    SkinView.applyPair r view pair = paint r view t pair.resId := by
  obtain ⟨attributeName, resId⟩ := pair
  obtain ⟨isImageView, isTextView, isSkinViewSupport, _, _, _, _, _, _⟩ := view
  dsimp only [target] at h
  split at h <;> cases h <;> cases isTextView <;> cases isSkinViewSupport <;> rfl

section Turns

variable {r : SkinResources δ} {view : View δ} {t t' : Target} {resId resId' : ℤ}

theorem shown_paint (hview : view.isTextView = true) (side : Side) :
    (paint r view t resId).shown side =
      if t = .side side then r.getDrawable resId else none := by
  cases side <;> simp [View.shown, paint, drawables, hview, Side.index]

theorem drawables_of_missing (h : ∀ side, t = .side side → r.getDrawable resId = none) :
    drawables r t resId = List.replicate 4 none := by
  have hside : ∀ side, (if t = .side side then r.getDrawable resId else none) = none := by
    intro side
    split_ifs with ht
    · exact h side ht
    · rfl
  simp only [drawables, List.map_cons, List.map_nil, hside]
  rfl

/-- Turns for different targets commute where neither sets a drawable. -/
theorem paint_comm (hne : t ≠ t') (h : ∀ side, t = .side side → r.getDrawable resId = none)
    (h' : ∀ side, t' = .side side → r.getDrawable resId' = none) :
    paint r (paint r view t resId) t' resId' = paint r (paint r view t' resId') t resId := by
  simp only [paint, drawables_of_missing h, drawables_of_missing h', View.mk.injEq, and_self,
    true_and, and_true]
  constructor
  · split_ifs with hsecond hfirst hfirst
    · exact absurd (hfirst.trans hsecond.symm) hne
    · rfl
    · rfl
    · rfl
  · split_ifs with hsecond hfirst hfirst
    · exact absurd (hfirst.1.trans hsecond.1.symm) hne
    · rfl
    · rfl
    · rfl

end Turns

/-! ## The loop -/

section Loop

variable {r : SkinResources δ} {view : View δ} {pairs : List SkinPair}

theorem exists_target (h : ∀ pair ∈ pairs, (target pair.attributeName).isSome) {pair : SkinPair}
    (hpair : pair ∈ pairs) : ∃ t, target pair.attributeName = some t :=
  Option.isSome_iff_exists.mp (h pair hpair)

/-- What every turn keeps is kept by the loop. -/
theorem foldl_applyPair_induction {P : View δ → Prop} (hview : P view)
    (hpairs : ∀ pair ∈ pairs, (target pair.attributeName).isSome)
    (hstep : ∀ view, P view → ∀ pair ∈ pairs, ∀ t, target pair.attributeName = some t →
      P (paint r view t pair.resId)) :
    P (pairs.foldl (SkinView.applyPair r) view) := by
  apply List.foldlRecOn pairs (SkinView.applyPair r) hview
  intro view hbefore pair hpair
  obtain ⟨t, ht⟩ := exists_target hpairs hpair
  rw [applyPair_eq_paint ht]
  exact hstep view hbefore pair hpair t ht

theorem isTextView_foldl (hpairs : ∀ pair ∈ pairs, (target pair.attributeName).isSome)
    (hview : view.isTextView = true) :
    (pairs.foldl (SkinView.applyPair r) view).isTextView = true :=
  foldl_applyPair_induction (P := fun v => v.isTextView = true) hview hpairs fun _ h _ _ _ _ => h

theorem supportRuns_foldl (hpairs : ∀ pair ∈ pairs, (target pair.attributeName).isSome)
    (hview : view.isSkinViewSupport = true) :
    (pairs.foldl (SkinView.applyPair r) view).supportRuns = view.supportRuns + pairs.length := by
  induction pairs generalizing view with
  | nil => rfl
  | cons pair pairs ih =>
      obtain ⟨t, ht⟩ := exists_target hpairs List.mem_cons_self
      have hrest := ih (fun p hp => hpairs p (List.mem_cons_of_mem pair hp))
        (show (paint r view t pair.resId).isSkinViewSupport = true from hview)
      rw [List.foldl_cons, applyPair_eq_paint ht, hrest, List.length_cons]
      simp only [paint, hview, if_true]
      omega

theorem background_foldl (hpairs : ∀ pair ∈ pairs, (target pair.attributeName).isSome)
    (hother : ∀ pair ∈ pairs, target pair.attributeName ≠ some .background) :
    (pairs.foldl (SkinView.applyPair r) view).background = view.background := by
  apply foldl_applyPair_induction (P := fun v => v.background = view.background) rfl hpairs
  intro v hv pair hpair t ht
  have hne : t ≠ .background := by
    rintro rfl
    exact hother pair hpair ht
  simp only [paint, hne, if_false, hv]

/-- The last turn decides about the drawables. -/
theorem shown_foldl_concat {pair : SkinPair} {t : Target}
    (hpairs : ∀ pair ∈ pairs, (target pair.attributeName).isSome)
    (hview : view.isTextView = true) (ht : target pair.attributeName = some t) (side : Side) :
    ((pairs ++ [pair]).foldl (SkinView.applyPair r) view).shown side =
      if t = .side side then r.getDrawable pair.resId else none := by
  rw [List.foldl_append, List.foldl_cons, List.foldl_nil, applyPair_eq_paint ht,
    shown_paint (isTextView_foldl hpairs hview)]

/-- A side that no attribute has as target is cleared. -/
theorem shown_foldl_of_unpaired (hpairs : ∀ pair ∈ pairs, (target pair.attributeName).isSome)
    (hview : view.isTextView = true) (hne : pairs ≠ []) {side : Side}
    (hunpaired : ∀ pair ∈ pairs, target pair.attributeName ≠ some (.side side)) :
    (pairs.foldl (SkinView.applyPair r) view).shown side = none := by
  obtain ⟨init, last, hconcat⟩ := (List.eq_nil_or_concat pairs).resolve_left hne
  rw [List.concat_eq_append] at hconcat
  subst hconcat
  obtain ⟨t, ht⟩ := exists_target hpairs (List.mem_append_right init (List.mem_singleton.mpr rfl))
  have hother : t ≠ .side side := by
    rintro rfl
    exact hunpaired last (List.mem_append_right init (List.mem_singleton.mpr rfl)) ht
  rw [shown_foldl_concat (fun p hp => hpairs p (List.mem_append_left _ hp)) hview ht,
    if_neg hother]

/-- Where one turn does not undo another, the order of the attributes does not matter. -/
theorem foldl_applyPair_perm {pairs' : List SkinPair} (hdistinct : DistinctTargets pairs)
    (hmissing : 2 ≤ pairs.length → ∀ pair ∈ pairs, ∀ side,
      target pair.attributeName = some (.side side) → r.getDrawable pair.resId = none)
    (hperm : pairs.Perm pairs') :
    pairs.foldl (SkinView.applyPair r) view = pairs'.foldl (SkinView.applyPair r) view := by
  apply hperm.foldl_eq'
  intro x hx y hy z
  by_cases heq : x = y
  · rw [heq]
  · have htwo : 2 ≤ pairs.length := by
      match pairs, hx, hy with
      | [_], hx, hy =>
          have hsame := (List.mem_singleton.mp hx).trans (List.mem_singleton.mp hy).symm
          exact absurd hsame heq
      | _ :: _ :: _, _, _ => exact Nat.le_add_left 2 _
    obtain ⟨t, ht⟩ := exists_target hdistinct.isSome hx
    obtain ⟨t', ht'⟩ := exists_target hdistinct.isSome hy
    have hne : t ≠ t' := by
      rintro rfl
      exact heq (List.inj_on_of_nodup_map hdistinct.nodup hx hy (ht.trans ht'.symm))
    rw [applyPair_eq_paint ht, applyPair_eq_paint ht', applyPair_eq_paint ht',
      applyPair_eq_paint ht]
    apply paint_comm hne
    · rintro side rfl
      exact hmissing htwo x hx side ht
    · rintro side rfl
      exact hmissing htwo y hy side ht'

end Loop

section Law

variable {r : SkinResources δ} {v : SkinView δ}

/-- Any attribute can be taken out, and the others have other targets. -/
theorem DistinctTargets.erase {pairs : List SkinPair} (h : DistinctTargets pairs)
    {pair : SkinPair} (hpair : pair ∈ pairs) :
    DistinctTargets (pairs.erase pair) ∧
      ∀ other ∈ pairs.erase pair, target other.attributeName ≠ target pair.attributeName := by
  have hperm := List.perm_cons_erase hpair
  have hnodup := (hperm.map fun pair => target pair.attributeName).nodup_iff.mp h.nodup
  rw [List.map_cons, List.nodup_cons] at hnodup
  refine ⟨⟨fun p hp => h.isSome p (List.mem_of_mem_erase hp), hnodup.2⟩, fun other hother heq => ?_⟩
  exact hnodup.1 (heq ▸ List.mem_map_of_mem (f := fun pair : SkinPair => target pair.attributeName)
    hother)

theorem Applied.undisturbed (hview : v.view.isTextView = true)
    (hdistinct : DistinctTargets v.mSkinPairs) (h : Applied r v) : Undisturbed r v := by
  constructor
  case single =>
      intro hsupport
      have hruns := h.support hsupport
      rw [SkinView.applySkin, supportRuns_foldl hdistinct.isSome hsupport] at hruns
      omega
  case bare =>
      intro hne side hunpaired
      rw [← h.unpaired side hunpaired]
      exact shown_foldl_of_unpaired hdistinct.isSome hview hne hunpaired
  case missing =>
      -- taken first, the attribute is undone by another one
      intro htwo pair hpair side hside
      obtain ⟨hrest, hother⟩ := hdistinct.erase hpair
      have hne : v.mSkinPairs.erase pair ≠ [] := by
        have hlength := List.length_erase_of_mem hpair
        intro hnil
        rw [hnil, List.length_nil] at hlength
        omega
      rw [hside] at hother
      have hshown := shown_foldl_of_unpaired (r := r) hrest.isSome
        (show (paint r v.view (.side side) pair.resId).isTextView = true from hview) hne hother
      rw [← applyPair_eq_paint hside, ← List.foldl_cons] at hshown
      rw [← h.paired pair hpair side hside, ← h.permuted _ (List.perm_cons_erase hpair).symm]
      exact hshown

/-- Any attribute may be taken last. -/
theorem Undisturbed.applySkin_eq (hdistinct : DistinctTargets v.mSkinPairs) (h : Undisturbed r v)
    {pair : SkinPair} (hpair : pair ∈ v.mSkinPairs) {t : Target}
    (ht : target pair.attributeName = some t) :
    (v.applySkin r).view =
      paint r ((v.mSkinPairs.erase pair).foldl (SkinView.applyPair r) v.view) t pair.resId := by
  have hperm : v.mSkinPairs.Perm (v.mSkinPairs.erase pair ++ [pair]) :=
    (List.perm_cons_erase hpair).trans (List.perm_append_singleton _ _).symm
  rw [SkinView.applySkin, foldl_applyPair_perm hdistinct h.missing hperm, List.foldl_append,
    List.foldl_cons, List.foldl_nil, applyPair_eq_paint ht]

theorem Undisturbed.applied (hview : v.view.isTextView = true)
    (hdistinct : DistinctTargets v.mSkinPairs) (h : Undisturbed r v) : Applied r v := by
  constructor
  case background =>
      intro pair hpair ht
      obtain ⟨hrest, hother⟩ := hdistinct.erase hpair
      rw [ht] at hother
      rw [h.applySkin_eq hdistinct hpair ht, paint, if_pos rfl,
        background_foldl hrest.isSome hother]
  case textColor =>
      intro pair hpair ht
      have htext := isTextView_foldl (r := r) (hdistinct.erase hpair).1.isSome hview
      rw [h.applySkin_eq hdistinct hpair ht]
      exact if_pos ⟨rfl, htext⟩
  case paired =>
      intro pair hpair side ht
      have htext := isTextView_foldl (r := r) (hdistinct.erase hpair).1.isSome hview
      rw [h.applySkin_eq hdistinct hpair ht, shown_paint htext, if_pos rfl]
  case unpaired =>
      intro side hunpaired
      by_cases hne : v.mSkinPairs = []
      · rw [SkinView.applySkin, hne, List.foldl_nil]
      · rw [h.bare hne side hunpaired]
        exact shown_foldl_of_unpaired hdistinct.isSome hview hne hunpaired
  case permuted =>
      intro pairs hperm
      exact (foldl_applyPair_perm hdistinct h.missing hperm.symm).symm
  case support =>
      intro hsupport
      rw [SkinView.applySkin, supportRuns_foldl hdistinct.isSome hsupport, h.single hsupport]

/-- On a text view every recorded attribute takes effect exactly when no turn undoes
another. -/
theorem applied_iff (r : SkinResources δ) (v : SkinView δ) (hview : v.view.isTextView = true)
    (hdistinct : DistinctTargets v.mSkinPairs) : Applied r v ↔ Undisturbed r v := by
  constructor
  · exact Applied.undisturbed hview hdistinct
  · exact Undisturbed.applied hview hdistinct

end Law

/-- A text view without drawables, whose background and text colour have a skin. -/
def twoAttributes (mSkinPairs : List SkinPair) : SkinView Unit :=
  { view := { isTextView := true }, mSkinPairs := mSkinPairs }

/-- The skin of the application itself. -/
def plainSkin : SkinResources Unit := { mAppResource := some plainResources }

theorem undisturbed_twoAttributes {mSkinPairs : List SkinPair}
    (htargets : ∀ pair ∈ mSkinPairs,
      target pair.attributeName ∈ [some Target.background, some Target.textColor]) :
    Undisturbed plainSkin (twoAttributes mSkinPairs) := by
  refine ⟨fun hsupport => absurd hsupport Bool.false_ne_true, fun _ side _ => ?_,
    fun _ pair hpair side hside => ?_⟩
  · cases side <;> rfl
  · have hmem := htargets pair hpair
    rw [hside] at hmem
    simp at hmem

/-- Two attributes in both orders. -/
theorem applied_twoAttributes :
    Applied plainSkin (twoAttributes [⟨"background", 7⟩, ⟨"textColor", 8⟩]) ∧
      Applied plainSkin (twoAttributes [⟨"textColor", 8⟩, ⟨"background", 7⟩]) :=
  ⟨(applied_iff _ _ rfl ⟨by decide, by decide⟩).mpr (undisturbed_twoAttributes (by decide)),
    (applied_iff _ _ rfl ⟨by decide, by decide⟩).mpr (undisturbed_twoAttributes (by decide))⟩

/-- A drawable on the left and one on the right: the first one is gone. -/
theorem not_applied_twoDrawables :
    ¬ ∀ (r : SkinResources Unit) (v : SkinView Unit), v.view.isTextView = true →
      DistinctTargets v.mSkinPairs → Applied r v := by
  intro hlaw
  have happlied := hlaw { mAppResource := some plainResources }
    { view := { isTextView := true }, mSkinPairs := [⟨"drawableLeft", 1⟩, ⟨"drawableRight", 2⟩] }
    rfl ⟨by decide, by decide⟩
  have hleft := happlied.paired ⟨"drawableLeft", 1⟩ List.mem_cons_self .left rfl
  exact absurd hleft (by decide)

end StudyNotes.Skin
