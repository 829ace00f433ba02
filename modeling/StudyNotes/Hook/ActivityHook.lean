/-
# The activity hook (`HookHelper`)

A proxy of the activity manager replaces the Intent of `startActivity` by one for a
registered stub and stores the original in an extra.  A callback of the main
handler sees every launch of the process and sets the component of its Intent to
the one of the stored original.

The callback gives back nothing else of the original, and for a launch that was
never wrapped it takes the component from a null reference.  So no launch that
passed the proxy is delivered with its own Intent, and any other only if it carries
the extra or has no component to lose.
-/

import Mathlib.Data.List.Basic

namespace StudyNotes.Hook

/-! ## Intents -/

structure ComponentName where
  pkg : String
  cls : String
  deriving DecidableEq

mutual

/-- What the hook and its law read of an `Intent`. -/
structure Intent where
  component : Option ComponentName := none
  action : Option String := none
  data : Option String := none
  extras : List (String × Extra) := []

/-- A stored value: an Intent, another `Parcelable`, or anything else. -/
inductive Extra
  | intent (value : Intent)
  | parcelable (className : String)
  | value (text : String)

end

/-- The exceptions that the hook meets. -/
inductive Thrown
  | nullPointer
  | classCast
  | arrayIndexOutOfBounds
  deriving DecidableEq

namespace Intent

def getExtra (i : Intent) (name : String) : Option Extra := i.extras.lookup name

/-- `putExtra(name, value)`. -/
def putExtra (i : Intent) (name : String) (value : Extra) : Intent :=
  { i with extras := (name, value) :: i.extras.filter (·.1 ≠ name) }

/-- `getParcelableExtra<Intent>(name)`.  A value that is no `Parcelable` counts as
absent; one of another class fails the cast to `Intent`. -/
def getParcelableExtra (i : Intent) (name : String) : Except Thrown (Option Intent) :=
  match i.getExtra name with
  | some (.intent value) => .ok (some value)
  | some (.parcelable _) => .error .classCast
  | some (.value _) => .ok none
  | none => .ok none

/-- The two Intents agree in component, action, data and extras. -/
structure Same (i j : Intent) : Prop where
  component : i.component = j.component
  action : i.action = j.action
  data : i.data = j.data
  extras : ∀ name, i.getExtra name = j.getExtra name

end Intent

def EXTRA_TARGET_INTENT : String := "extra_target_intent"

/-- The Intent carries `extra_target_intent`. -/
def Intent.Carries (i : Intent) : Prop := (i.getExtra EXTRA_TARGET_INTENT).isSome = true

/-! ## The proxies -/

/-- An argument of a call of the activity manager. -/
inductive Arg
  | intent (value : Intent)
  | other (text : String)

def Arg.intent? : Arg → Option Intent
  | .intent value => some value
  | .other _ => none

/-- The component of `StubActivity`. -/
def stub : ComponentName :=
  ⟨"com.chencc.androidstudynotescode",
    "com.chencc.androidstudynotescode.hook.activityhook.StubActivity"⟩

/-- `newIntent` of the handlers. -/
def newIntent (raw : Intent) : Intent :=
  ({ component := some stub } : Intent).putExtra EXTRA_TARGET_INTENT (.intent raw)

/-- `forEachIndexed` of the handlers: the last Intent and its index. -/
def findRaw : List Arg → ℕ → Option (Intent × ℕ) → Option (Intent × ℕ)
  | [], _, found => found
  | arg :: args, i, found =>
    findRaw args (i + 1) (match arg with
      | .intent value => some (value, i)
      | .other _ => found)

/-- The invocation handler of both proxies, with the arguments it passes on.  Without an
Intent the index is still `-1`. -/
def invoke (method : String) (args : List Arg) : Except Thrown (List Arg) :=
  if method = "startActivity" then
    match findRaw args 0 none with
    | some (raw, index) => .ok (args.set index (.intent (newIntent raw)))
    | none => .error .arrayIndexOutOfBounds
  else .ok args

/-- The proxy set by `hookIActivityTaskManager()`. -/
def hookIActivityTaskManager : String → List Arg → Except Thrown (List Arg) := invoke

/-- The proxy set by `hookIActivityManager()`. -/
def hookIActivityManager : String → List Arg → Except Thrown (List Arg) := invoke

/-- `hookAMSAidl()`, by the version of the system; `28` is `VERSION_CODES.P`. -/
def hookAMSAidl (sdk : ℕ) : String → List Arg → Except Thrown (List Arg) :=
  if 28 < sdk then hookIActivityTaskManager else hookIActivityManager

/-! ## The callback of the handler -/

/-- A callback of a client transaction. -/
inductive Item
  | launchActivityItem (mIntent : Option Intent)
  | other

/-- The object of a message. -/
inductive Payload
  | null
  | activityClientRecord (intent : Option Intent)
  | clientTransaction (mActivityCallbacks : Option (List Item))
  | other

structure Message where
  what : ℕ
  obj : Payload

/-- The cast of the reflected field, and the assignment of the component. -/
def setComponent (intent : Option Intent) : Except Thrown Intent :=
  match intent with
  | none => .error .nullPointer
  | some intent => do
    let targetIntent ← intent.getParcelableExtra EXTRA_TARGET_INTENT
    pure { intent with component := targetIntent.bind (·.component) }

/-- `handleMessage(msg)`, with the message that it gives to `mH.handleMessage`.  Only the
branch for `159` catches exceptions. -/
def handleMessage (msg : Message) : Except Thrown Message :=
  if msg.what = 100 then
    match msg.obj with
    | .null => .error .nullPointer
    | .activityClientRecord intent => do
      let intent ← setComponent intent
      pure { msg with obj := .activityClientRecord (some intent) }
    | .clientTransaction _ => .ok msg
    | .other => .ok msg
  else if msg.what = 159 then
    match msg.obj with
    | .clientTransaction (some (.launchActivityItem intent :: items)) =>
      match setComponent intent with
      | .ok intent =>
        .ok { msg with obj := .clientTransaction (some (.launchActivityItem (some intent) :: items)) }
      | .error _ => .ok msg
    | _ => .ok msg
  else .ok msg

/-! ## Launches -/

def Item.launch? : Item → Option Intent
  | .launchActivityItem mIntent => mIntent
  | .other => none

/-- The Intents of the launches of a message. -/
def Message.launches (msg : Message) : List Intent :=
  match msg.obj with
  | .activityClientRecord intent => if msg.what = 100 then intent.toList else []
  | .clientTransaction (some items) => if msg.what = 159 then items.filterMap Item.launch? else []
  | _ => []

/-- The two formats of a launch message. -/
inductive LaunchFormat
  | activityClientRecord
  | clientTransaction (items : List Item)

/-- The message by which the system launches an activity for an Intent. -/
def LaunchFormat.message (format : LaunchFormat) (intent : Intent) : Message :=
  match format with
  | .activityClientRecord => ⟨100, .activityClientRecord (some intent)⟩
  | .clientTransaction items =>
    ⟨159, .clientTransaction (some (.launchActivityItem (some intent) :: items))⟩

/-- A launch that began with a `startActivity` through the proxy, whose one Intent stands
between other arguments, or any message of the handler. -/
inductive Delivery
  | started (sdk : ℕ) (before : List String) (raw : Intent) (following : List String)
      (format : LaunchFormat)
  | message (msg : Message)

/-- The system launches the activity of the Intent it was given. -/
def launch (sdk : ℕ) (args : List Arg) (format : LaunchFormat) : Except Thrown Message := do
  let args ← hookAMSAidl sdk "startActivity" args
  match args.findSome? Arg.intent? with
  | some intent => handleMessage (format.message intent)
  | none => .error .nullPointer

/-- The hook is transparent: a launch that was started is delivered with the original
Intent, and one that does not carry the extra with its own. -/
def Delivery.Transparent : Delivery → Prop
  | .started sdk before raw following format =>
    ∃ msg delivered, launch sdk (before.map .other ++ .intent raw :: following.map .other) format =
      .ok msg ∧ msg.launches.head? = some delivered ∧ delivered.Same raw
  | .message msg => ∀ (n : ℕ) (intent : Intent), msg.launches[n]? = some intent → ¬ intent.Carries →
    ∃ msg', handleMessage msg = .ok msg' ∧ msg'.launches[n]? = some intent

/-- The launch whose component the callback sets. -/
def Message.first? (msg : Message) : Option Intent :=
  match msg.obj with
  | .activityClientRecord intent => if msg.what = 100 then intent else none
  | .clientTransaction (some (item :: _)) => if msg.what = 159 then item.launch? else none
  | _ => none

/-- The launch was not started through the proxy, and carries the extra or has no
component. -/
def Delivery.Spared : Delivery → Prop
  | .started .. => False
  | .message msg => ∀ intent, msg.first? = some intent → intent.Carries ∨ intent.component = none

/-! ## A started launch -/

theorem findRaw_others (texts : List String) (args : List Arg) (i : ℕ)
    (found : Option (Intent × ℕ)) :
    findRaw (texts.map .other ++ args) i found = findRaw args (i + texts.length) found := by
  induction texts generalizing i with
  | nil => rfl
  | cons text texts ih =>
      rw [List.map_cons, List.cons_append, findRaw, ih, List.length_cons]
      congr 1
      omega

/-- The proxy replaces the Intent where it stands. -/
theorem invoke_startActivity (before following : List String) (raw : Intent) :
    invoke "startActivity" (before.map .other ++ .intent raw :: following.map .other) =
      .ok (before.map .other ++ .intent (newIntent raw) :: following.map .other) := by
  have hfollowing := findRaw_others following [] (before.length + 1) (some (raw, before.length))
  rw [List.append_nil, findRaw] at hfollowing
  have hfound : findRaw (before.map .other ++ .intent raw :: following.map .other) 0 none =
      some (raw, before.length) := by
    rw [findRaw_others, Nat.zero_add, findRaw, hfollowing]
  simp [invoke, hfound]

/-- The Intent of a launch that was started: the component is given back, and only that. -/
def delivered (raw : Intent) : Intent :=
  ⟨raw.component, none, none, [(EXTRA_TARGET_INTENT, .intent raw)]⟩

theorem setComponent_newIntent (raw : Intent) :
    setComponent (some (newIntent raw)) = .ok (delivered raw) := by
  have hextra : (newIntent raw).getExtra EXTRA_TARGET_INTENT = some (.intent raw) := by
    simp [newIntent, Intent.putExtra, Intent.getExtra]
  simp only [setComponent, Intent.getParcelableExtra, hextra]
  rfl

theorem handleMessage_message {format : LaunchFormat} {intent intent' : Intent}
    (h : setComponent (some intent) = .ok intent') :
    handleMessage (format.message intent) = .ok (format.message intent') := by
  cases format with
  | activityClientRecord =>
      simp only [LaunchFormat.message, handleMessage, h, if_true]
      rfl
  | clientTransaction items => simp [LaunchFormat.message, handleMessage, h]

/-- Further launches of the message. -/
def LaunchFormat.rest : LaunchFormat → List Intent
  | .activityClientRecord => []
  | .clientTransaction items => items.filterMap Item.launch?

@[simp]
theorem launches_message (format : LaunchFormat) (intent : Intent) :
    (format.message intent).launches = intent :: format.rest := by
  cases format with
  | activityClientRecord => rfl
  | clientTransaction items => rfl

theorem launch_eq (sdk : ℕ) (before following : List String) (raw : Intent)
    (format : LaunchFormat) :
    launch sdk (before.map .other ++ .intent raw :: following.map .other) format =
      .ok (format.message (delivered raw)) := by
  have hproxy : hookAMSAidl sdk "startActivity" = invoke "startActivity" := by
    rw [hookAMSAidl]
    split
    · rfl
    · rfl
  have hnone : (before.map Arg.other).findSome? Arg.intent? = none := by
    simp [Arg.intent?]
  have hintent : (before.map Arg.other ++
      Arg.intent (newIntent raw) :: following.map Arg.other).findSome? Arg.intent? =
        some (newIntent raw) := by
    rw [List.findSome?_append, hnone]
    rfl
  rw [launch, hproxy, invoke_startActivity]
  simp only [bind, Except.bind, hintent]
  exact handleMessage_message (setComponent_newIntent raw)

/-- An Intent is no extra of its own. -/
theorem sizeOf_lt_of_getExtra {i j : Intent} {name : String}
    (h : i.getExtra name = some (.intent j)) : sizeOf j < sizeOf i := by
  obtain ⟨before, following, hextras, -⟩ := List.lookup_eq_some_iff.mp h
  have hmem : (name, Extra.intent j) ∈ i.extras := by simp [hextras]
  have hlist := List.sizeOf_lt_of_mem hmem
  cases i with
  | mk component action data extras =>
      simp only [Prod.mk.sizeOf_spec, Extra.intent.sizeOf_spec] at hlist
      simp only [Intent.mk.sizeOf_spec]
      omega

theorem not_same_delivered (raw : Intent) : ¬ (delivered raw).Same raw := by
  intro hsame
  have hextra := hsame.extras EXTRA_TARGET_INTENT
  have hself : raw.getExtra EXTRA_TARGET_INTENT = some (.intent raw) := by
    rw [← hextra]
    simp [delivered, Intent.getExtra]
  exact absurd (sizeOf_lt_of_getExtra hself) (Nat.lt_irrefl _)

/-! ## Any other launch -/

/-- Without the extra the component is lost. -/
theorem setComponent_of_not_carries {intent : Intent} (h : ¬ intent.Carries) :
    setComponent (some intent) = .ok { intent with component := none } := by
  have hnone : intent.getExtra EXTRA_TARGET_INTENT = none := by
    simpa [Intent.Carries] using h
  simp only [setComponent, Intent.getParcelableExtra, hnone]
  rfl

theorem exists_format_of_first? {msg : Message} {intent : Intent}
    (h : msg.first? = some intent) : ∃ format : LaunchFormat, msg = format.message intent := by
  obtain ⟨what, obj⟩ := msg
  cases obj with
  | null => simp [Message.first?] at h
  | other => simp [Message.first?] at h
  | activityClientRecord record =>
      simp only [Message.first?, Option.ite_none_right_eq_some] at h
      obtain ⟨rfl, rfl⟩ := h
      exact ⟨.activityClientRecord, rfl⟩
  | clientTransaction callbacks =>
      cases callbacks with
      | none => simp [Message.first?] at h
      | some items =>
          cases items with
          | nil => simp [Message.first?] at h
          | cons item items =>
              simp only [Message.first?, Option.ite_none_right_eq_some] at h
              obtain ⟨rfl, hitem⟩ := h
              cases item with
              | other => simp [Item.launch?] at hitem
              | launchActivityItem mIntent =>
                  cases hitem
                  exact ⟨.clientTransaction items, rfl⟩

/-- A message with launches, none of which comes first, is passed on as it is. -/
theorem handleMessage_of_first?_none {msg : Message} (h : msg.first? = none)
    (hlaunches : msg.launches ≠ []) : handleMessage msg = .ok msg := by
  obtain ⟨what, obj⟩ := msg
  cases obj with
  | null => simp [Message.launches] at hlaunches
  | other => simp [Message.launches] at hlaunches
  | activityClientRecord record =>
      by_cases hwhat : what = 100
      · simp_all [Message.first?, Message.launches]
      · simp [Message.launches, hwhat] at hlaunches
  | clientTransaction callbacks =>
      by_cases hwhat : what = 159
      · subst hwhat
        cases callbacks with
        | none => rfl
        | some items =>
            cases items with
            | nil => rfl
            | cons item items =>
                cases item with
                | other => rfl
                | launchActivityItem mIntent =>
                    have hnull : mIntent = none := by simpa [Message.first?, Item.launch?] using h
                    rw [hnull]
                    rfl
      · cases callbacks with
        | none => simp [Message.launches] at hlaunches
        | some items => simp [Message.launches, hwhat] at hlaunches

/-- The launches after the first one are never touched. -/
theorem handleMessage_rest {format : LaunchFormat} {intent : Intent} (h : format.rest ≠ []) :
    ∃ intent', handleMessage (format.message intent) = .ok (format.message intent') := by
  cases hset : setComponent (some intent) with
  | ok intent' => exact ⟨intent', handleMessage_message hset⟩
  | error e =>
      cases format with
      | activityClientRecord => exact absurd rfl h
      | clientTransaction items =>
          exact ⟨intent, by simp [LaunchFormat.message, handleMessage, hset]⟩

theorem transparent_message_iff (msg : Message) :
    (Delivery.message msg).Transparent ↔ (Delivery.message msg).Spared := by
  simp only [Delivery.Transparent, Delivery.Spared]
  cases hfirst : msg.first? with
  | none =>
      refine ⟨fun _ intent hintent => by simp at hintent, fun _ n intent hn _ => ?_⟩
      have hlaunches : msg.launches ≠ [] := by
        intro hnil
        simp [hnil] at hn
      exact ⟨msg, handleMessage_of_first?_none hfirst hlaunches, hn⟩
  | some first =>
      obtain ⟨format, rfl⟩ := exists_format_of_first? hfirst
      simp only [launches_message, Option.some.injEq, forall_eq']
      constructor
      · intro h
        by_cases hcarries : first.Carries
        · exact Or.inl hcarries
        · obtain ⟨msg', hmsg', hkept⟩ := h 0 first rfl hcarries
          rw [handleMessage_message (setComponent_of_not_carries hcarries)] at hmsg'
          cases hmsg'
          have hsame : ({ first with component := none } : Intent) = first := by
            simpa using hkept
          exact Or.inr (congrArg Intent.component hsame).symm
      · intro h n intent hn hcarries
        cases n with
        | zero =>
            cases hn
            have hnone := h.resolve_left hcarries
            have hsame : ({ first with component := none } : Intent) = first := by
              rw [← hnone]
              cases first
              rfl
            refine ⟨_, handleMessage_message (setComponent_of_not_carries hcarries), ?_⟩
            rw [launches_message, hsame]
            rfl
        | succ n =>
            have hrest : format.rest ≠ [] := by
              intro hnil
              simp [hnil] at hn
            obtain ⟨intent', hmsg'⟩ := @handleMessage_rest format first hrest
            exact ⟨_, hmsg', by simpa using hn⟩

/-- The hook is transparent for a delivery exactly when it was not started through the
proxy and carries the extra or has no component. -/
theorem transparent_iff (d : Delivery) : d.Transparent ↔ d.Spared := by
  cases d with
  | message msg => exact transparent_message_iff msg
  | started sdk before raw following format =>
      simp only [Delivery.Transparent, Delivery.Spared, iff_false]
      rintro ⟨msg, intent, hlaunch, hhead, hsame⟩
      rw [launch_eq] at hlaunch
      cases hlaunch
      rw [launches_message] at hhead
      cases hhead
      exact not_same_delivered raw hsame

/-- A page to view, in the hook's own application. -/
def viewPage : Intent where
  component := some ⟨"com.chencc.androidstudynotescode", "TargetActivity"⟩
  action := some "android.intent.action.VIEW"
  data := some "page:1"

/-- Started through the proxy it arrives without action and data; launched by anyone
else it arrives without a component. -/
theorem not_transparent_viewPage :
    ¬ (Delivery.started 30 [] viewPage [] (.clientTransaction [])).Transparent ∧
      ¬ (Delivery.message ((LaunchFormat.clientTransaction []).message viewPage)).Transparent := by
  constructor
  · rintro ⟨msg, intent, hlaunch, hhead, hsame⟩
    cases hlaunch
    cases hhead
    exact absurd hsame.action (by decide)
  · intro h
    have hplain : ¬ viewPage.Carries := by simp [Intent.Carries, Intent.getExtra, viewPage]
    obtain ⟨msg', hmsg', hkept⟩ := h 0 viewPage rfl hplain
    cases hmsg'
    have hcomponent := congrArg (Option.map Intent.component) hkept
    exact absurd hcomponent (by decide)

end StudyNotes.Hook
