/-
# Dragging with several fingers (`MultiTouchEvent`)

The picture follows the finger that went down last.  When this finger is lifted, the next
one takes over, or the one before it if it was the last.  A finger has an id, which it
keeps while it is down, and an index in the current event; the two differ once a finger
with a smaller id was lifted.

Where a finger takes over, `onTouchEvent` reads the point it starts from with its id in
the place of its index.  A finger that goes down has the first free id, which is also its
index, so this does no harm there.  As long as every finger that takes over from a lifted
one has its id as index, no index is out of range and the picture moves by exactly what
the active finger moves.
-/

import Mathlib.Algebra.Group.Prod
import Mathlib.Tactic.Abel
import Mathlib.Tactic.IntervalCases
import StudyNotes.Lib.Run

namespace StudyNotes.View

open StudyNotes.Run

variable {K : Type}

/-! ## Events -/

/-- The pointers of an event by index, each with its id and its coordinates. -/
structure MotionEvent (K : Type) where
  pointers : List (ℕ × K × K)

inductive Action
  | down
  | move
  | pointerDown (actionIndex : ℕ)
  | pointerUp (actionIndex : ℕ)
deriving DecidableEq, Repr

namespace MotionEvent

def pointerCount (event : MotionEvent K) : ℕ := event.pointers.length

/-- `getPointerId(pointerIndex)`, `none` where the index is out of range. -/
def getPointerId (event : MotionEvent K) (pointerIndex : ℕ) : Option ℕ :=
  (event.pointers[pointerIndex]?).map Prod.fst

/-- `getX(pointerIndex)` and `getY(pointerIndex)`, `none` where the index is out of
range. -/
def getXY (event : MotionEvent K) (pointerIndex : ℕ) : Option (K × K) :=
  (event.pointers[pointerIndex]?).map Prod.snd

/-- `findPointerIndex(pointerId)`, `none` for the -1 that no accessor takes. -/
def findPointerIndex (event : MotionEvent K) (pointerId : ℕ) : Option ℕ :=
  event.pointers.findIdx? (·.1 = pointerId)

end MotionEvent

/-! ## The platform -/

/-- The ids of the fingers that are down, in order. -/
structure Fingers where
  ids : List ℕ
  sorted : ids.Pairwise (· < ·)

/-- The first free id from `k` on. -/
def freeFrom : ℕ → List ℕ → ℕ
  | k, [] => k
  | k, id :: ids => if id = k then freeFrom (k + 1) ids else k

/-- The ids with the first free one from `k` on. -/
def pressFrom : ℕ → List ℕ → List ℕ
  | k, [] => [k]
  | k, id :: ids => if id = k then id :: pressFrom (k + 1) ids else k :: id :: ids

theorem sorted_pressFrom {k : ℕ} {ids : List ℕ} (hids : ids.Pairwise (· < ·))
    (hle : ∀ id ∈ ids, k ≤ id) :
    (pressFrom k ids).Pairwise (· < ·) ∧ ∀ id ∈ pressFrom k ids, k ≤ id := by
  induction ids generalizing k with
  | nil => simp [pressFrom]
  | cons id ids ih =>
      rw [List.pairwise_cons] at hids
      rw [List.forall_mem_cons] at hle
      rw [pressFrom]
      split_ifs with hid
      · subst hid
        obtain ⟨hsorted, hlarger⟩ := ih hids.2 hids.1
        refine ⟨List.pairwise_cons.mpr ⟨hlarger, hsorted⟩, ?_⟩
        exact List.forall_mem_cons.mpr ⟨Nat.le_refl _, fun i hi => Nat.le_of_lt (hlarger i hi)⟩
      · have hlt : k < id := Nat.lt_of_le_of_ne hle.1 (Ne.symm hid)
        have hall : ∀ i ∈ id :: ids, k < i :=
          List.forall_mem_cons.mpr ⟨hlt, fun i hi => Nat.lt_trans hlt (hids.1 i hi)⟩
        refine ⟨List.pairwise_cons.mpr ⟨hall, List.pairwise_cons.mpr hids⟩, ?_⟩
        exact List.forall_mem_cons.mpr ⟨Nat.le_refl _, fun i hi => Nat.le_of_lt (hall i hi)⟩

/-- The first free id is found at its own index. -/
theorem getElem?_pressFrom (k : ℕ) (ids : List ℕ) :
    ∃ n, freeFrom k ids = k + n ∧ (pressFrom k ids)[n]? = some (k + n) := by
  induction ids generalizing k with
  | nil => exact ⟨0, rfl, rfl⟩
  | cons id ids ih =>
      rw [freeFrom, pressFrom]
      split_ifs with hid
      · obtain ⟨n, hfree, hat⟩ := ih (k + 1)
        exact ⟨n + 1, by omega, by rw [List.getElem?_cons_succ, hat]; congr 1; omega⟩
      · exact ⟨0, rfl, rfl⟩

namespace Fingers

/-- The one finger of `ACTION_DOWN`. -/
def first : Fingers := ⟨[0], List.pairwise_singleton _ _⟩

/-- The id of the next finger. -/
def free (fingers : Fingers) : ℕ := freeFrom 0 fingers.ids

def press (fingers : Fingers) : Fingers :=
  ⟨pressFrom 0 fingers.ids, (sorted_pressFrom fingers.sorted fun _ _ => Nat.zero_le _).1⟩

def lift (fingers : Fingers) (index : ℕ) : Fingers :=
  ⟨fingers.ids.eraseIdx index, fingers.sorted.sublist (List.eraseIdx_sublist _ _)⟩

/-- An event with these fingers at these places. -/
def event (fingers : Fingers) (place : ℕ → K × K) : MotionEvent K :=
  ⟨fingers.ids.map fun id => (id, place id)⟩

theorem getElem?_press (fingers : Fingers) :
    fingers.press.ids[fingers.free]? = some fingers.free := by
  obtain ⟨n, hfree, hat⟩ := getElem?_pressFrom 0 fingers.ids
  rw [Nat.zero_add] at hfree hat
  rw [free, hfree]
  exact hat

variable {fingers : Fingers}

@[simp]
theorem getPointerId_event (place : ℕ → K × K) (index : ℕ) :
    (fingers.event place).getPointerId index = fingers.ids[index]? := by
  rw [event, MotionEvent.getPointerId, List.getElem?_map, Option.map_map]
  exact Option.map_id_apply

@[simp]
theorem getXY_event (place : ℕ → K × K) (index : ℕ) :
    (fingers.event place).getXY index = (fingers.ids[index]?).map place := by
  rw [event, MotionEvent.getXY, List.getElem?_map, Option.map_map]
  rfl

@[simp]
theorem pointerCount_event (place : ℕ → K × K) :
    (fingers.event place).pointerCount = fingers.ids.length := List.length_map _

theorem findPointerIndex_event {id : ℕ} (h : id ∈ fingers.ids) (place : ℕ → K × K) :
    ∃ index, (fingers.event place).findPointerIndex id = some index ∧
      fingers.ids[index]? = some id := by
  have hmem : ∃ pointer ∈ (fingers.event place).pointers, decide (pointer.1 = id) = true :=
    ⟨(id, place id), List.mem_map_of_mem h, decide_eq_true rfl⟩
  obtain ⟨index, hindex⟩ := Option.isSome_iff_exists.mp
    (List.findIdx?_isSome.trans (List.any_eq_true.mpr hmem))
  refine ⟨index, hindex, ?_⟩
  obtain ⟨hlt, hid, -⟩ := List.findIdx?_eq_some_iff_getElem.mp hindex
  have hsame := of_decide_eq_true hid
  simp only [event, List.getElem_map] at hsame
  rw [List.getElem?_eq_some_iff]
  exact ⟨by simpa [event] using hlt, hsame⟩

end Fingers

variable [AddCommGroup K]

/-! ## The view -/

/-- The fields of the view, the two coordinates of each together. -/
structure MultiTouchEvent (K : Type) where
  offset : K × K
  lastOffset : K × K
  down : K × K
  currentPointId : ℕ

/-- `onTouchEvent(event)`, `none` where an index is out of range. -/
def MultiTouchEvent.onTouchEvent (v : MultiTouchEvent K) (event : MotionEvent K) :
    Action → Option (MultiTouchEvent K)
  | .down => do
      let point ← event.getXY 0
      some { v with down := point, lastOffset := v.offset, currentPointId := 0 }
  | .move => do
      let index ← event.findPointerIndex v.currentPointId
      let point ← event.getXY index
      some { v with offset := v.lastOffset + point - v.down }
  | .pointerDown index => do
      let id ← event.getPointerId index
      let point ← event.getXY id
      some { v with currentPointId := id, down := point, lastOffset := v.offset }
  | .pointerUp upIndex => do
      let pointerId ← event.getPointerId upIndex
      if pointerId = v.currentPointId then
        let upIndex := if upIndex = event.pointerCount - 1 then event.pointerCount - 2
          else upIndex + 1
        let id ← event.getPointerId upIndex
        let point ← event.getXY id
        some { v with currentPointId := id, down := point, lastOffset := v.offset }
      else some v

/-- What the fingers do: they move, another one goes down, or the one at an index is
lifted.  Their places at that moment are given by id. -/
inductive Touch (K : Type)
  | move (place : ℕ → K × K)
  | press (place : ℕ → K × K)
  | lift (index : ℕ) (place : ℕ → K × K)

namespace Touch

/-- Only a finger that is down can be lifted, and not the last one. -/
def Allowed (fingers : Fingers) : Touch K → Prop
  | .lift index _ => index < fingers.ids.length ∧ 2 ≤ fingers.ids.length
  | _ => True

/-- The fingers after it. -/
def fingers (before : Fingers) : Touch K → Fingers
  | .move _ => before
  | .press _ => before.press
  | .lift index _ => before.lift index

/-- The call of `onTouchEvent` for it.  A finger that is lifted is still in the event. -/
def deliver (before : Fingers) (v : MultiTouchEvent K) : Touch K → Option (MultiTouchEvent K)
  | .move place => v.onTouchEvent (before.event place) .move
  | .press place => v.onTouchEvent (before.press.event place) (.pointerDown before.free)
  | .lift index place => v.onTouchEvent (before.event place) (.pointerUp index)

end Touch

/-! ## Gestures -/

/-- A gesture in progress.  `anchor` is not part of the program: the place of the active
finger at the last move, or where it became active if that was later. -/
structure Gesture (K : Type) where
  fingers : Fingers
  view : MultiTouchEvent K
  anchor : K × K

namespace Gesture

/-- The index of the finger that takes over from the one at `index`. -/
def successor (fingers : Fingers) (index : ℕ) : ℕ :=
  if index = fingers.ids.length - 1 then fingers.ids.length - 2 else index + 1

/-- `ACTION_DOWN` at a point. -/
def start (v : MultiTouchEvent K) (point : K × K) : Option (Gesture K) := do
  let view ← v.onTouchEvent (Fingers.first.event fun _ => point) .down
  some ⟨.first, view, point⟩

/-- The anchor behind a touch that has left this view. -/
def nextAnchor (g : Gesture K) (view : MultiTouchEvent K) : Touch K → K × K
  | .move place => place view.currentPointId
  | .press place => place view.currentPointId
  | .lift index place =>
      if g.fingers.ids[index]? = some g.view.currentPointId then place view.currentPointId
      else g.anchor

def step (g : Gesture K) (t : Touch K) : Option (Gesture K) := do
  let view ← t.deliver g.fingers g.view
  some ⟨t.fingers g.fingers, view, g.nextAnchor view t⟩

/-- The gesture after these touches, `none` once an index was out of range. -/
def run (v : MultiTouchEvent K) (point : K × K) (ts : List (Touch K)) : Option (Gesture K) :=
  after (fun g t => g.bind (·.step t)) (start v point) ts

@[simp]
theorem run_append_singleton (v : MultiTouchEvent K) (point : K × K) (ts : List (Touch K))
    (t : Touch K) : run v point (ts ++ [t]) = (run v point ts).bind (·.step t) :=
  after_append_singleton _ _ _ _

/-- How far the active finger has moved. -/
def displacement (g : Gesture K) : Touch K → K × K
  | .move place => place g.view.currentPointId - g.anchor
  | _ => 0

/-- The active finger is down. -/
def Held (g : Gesture K) : Prop := g.view.currentPointId ∈ g.fingers.ids

/-- The event is handled without an index out of range, the active finger stays down, and
the picture moves as the active finger does. -/
def Smooth (g : Gesture K) (t : Touch K) : Prop :=
  ∃ g', g.step t = some g' ∧ g'.Held ∧ g'.view.offset - g.view.offset = g.displacement t

/-- A finger that takes over has its id as index. -/
def InOrder (g : Gesture K) : Touch K → Prop
  | .lift index _ =>
      g.fingers.ids[index]? = some g.view.currentPointId →
        g.fingers.ids[successor g.fingers index]? = some (successor g.fingers index)
  | _ => True

/-! ## One event -/

/-- The saved offset and point are those of the anchor. -/
structure Steady (g : Gesture K) : Prop where
  held : g.Held
  offset_eq : g.view.offset = g.view.lastOffset + g.anchor - g.view.down

variable {g : Gesture K} {t : Touch K} {fingers : Fingers} {place : ℕ → K × K}

theorem Steady.move (h : g.Steady) (place : ℕ → K × K) :
    ∃ g', g.step (.move place) = some g' ∧ g'.Steady ∧
      g'.view.offset - g.view.offset = g.displacement (.move place) := by
  obtain ⟨index, hindex, hid⟩ := Fingers.findPointerIndex_event h.held place
  refine ⟨⟨g.fingers, { g.view with
    offset := g.view.lastOffset + place g.view.currentPointId - g.view.down },
    place g.view.currentPointId⟩, ?_, ?_, ?_⟩
  · simp [step, Touch.deliver, MultiTouchEvent.onTouchEvent, hindex, hid, Touch.fingers, nextAnchor]
  · exact ⟨h.held, rfl⟩
  · show g.view.lastOffset + place g.view.currentPointId - g.view.down - g.view.offset =
      place g.view.currentPointId - g.anchor
    rw [h.offset_eq]
    abel

/-- A finger becomes active at the place where it is. -/
theorem Steady.takeOver (view : MultiTouchEvent K) (fingers : Fingers) {id : ℕ}
    (hid : id ∈ fingers.ids) (point : K × K) :
    Steady ⟨fingers, { view with
      currentPointId := id, down := point, lastOffset := view.offset }, point⟩ := by
  refine ⟨hid, ?_⟩
  dsimp only
  abel

theorem Steady.press (g : Gesture K) (place : ℕ → K × K) :
    ∃ g', g.step (.press place) = some g' ∧ g'.Steady ∧
      g'.view.offset - g.view.offset = g.displacement (.press place) := by
  have hid := g.fingers.getElem?_press
  refine ⟨_, ?_, .takeOver g.view g.fingers.press (List.mem_of_getElem? hid)
    (place g.fingers.free), sub_self _⟩
  simp [step, Touch.deliver, MultiTouchEvent.onTouchEvent, hid, Touch.fingers, nextAnchor]

theorem Steady.lift (h : g.Steady) {index : ℕ} (place : ℕ → K × K)
    (hallowed : Touch.Allowed g.fingers (.lift index place))
    (horder : g.InOrder (.lift index place)) :
    ∃ g', g.step (.lift index place) = some g' ∧ g'.Steady ∧
      g'.view.offset - g.view.offset = g.displacement (.lift index place) := by
  obtain ⟨hindex, htwo⟩ := hallowed
  by_cases hactive : g.fingers.ids[index]? = some g.view.currentPointId
  · have hnext := horder hactive
    have hne : successor g.fingers index ≠ index := by
      rw [successor]
      split_ifs <;> omega
    have hstays : successor g.fingers index ∈ (g.fingers.lift index).ids :=
      List.mem_eraseIdx_iff_getElem?.mpr ⟨_, hne, hnext⟩
    refine ⟨_, ?_, .takeOver g.view (g.fingers.lift index) hstays
      (place (successor g.fingers index)), sub_self _⟩
    rw [successor] at hnext
    simp [step, Touch.deliver, MultiTouchEvent.onTouchEvent, hactive, successor, hnext,
      Touch.fingers, nextAnchor]
  · obtain ⟨id, hid⟩ : ∃ id, g.fingers.ids[index]? = some id :=
      ⟨_, List.getElem?_eq_getElem hindex⟩
    have hother : id ≠ g.view.currentPointId := fun heq => hactive (heq ▸ hid)
    obtain ⟨index', hindex'⟩ := List.mem_iff_getElem?.mp h.held
    have hstays : g.view.currentPointId ∈ (g.fingers.lift index).ids := by
      refine List.mem_eraseIdx_iff_getElem?.mpr ⟨index', ?_, hindex'⟩
      rintro rfl
      exact hactive hindex'
    refine ⟨⟨g.fingers.lift index, g.view, g.anchor⟩, ?_, ⟨hstays, h.offset_eq⟩, sub_self _⟩
    simp [step, Touch.deliver, MultiTouchEvent.onTouchEvent, hid, hother, Touch.fingers,
      nextAnchor]

/-- The step lemma. -/
theorem Steady.step (h : g.Steady) (hallowed : t.Allowed g.fingers) (horder : g.InOrder t) :
    ∃ g', g.step t = some g' ∧ g'.Steady ∧
      g'.view.offset - g.view.offset = g.displacement t := by
  cases t with
  | move place => exact h.move place
  | press place => exact Steady.press g place
  | lift index place => exact h.lift place hallowed horder

theorem steady_start (v : MultiTouchEvent K) (point : K × K) :
    ∃ g, start v point = some g ∧ g.Steady ∧ g.view.offset = v.offset := by
  refine ⟨_, rfl, .takeOver v .first (List.mem_singleton.mpr rfl) point, rfl⟩

/-! ## Whole gestures -/

/-- The fingers after these touches. -/
def fingersAfter (ts : List (Touch K)) : Fingers := after (fun fingers t => t.fingers fingers) .first ts

/-- The touches follow the rules of the platform. -/
def Permitted (ts : List (Touch K)) : Prop :=
  EveryStep (fun pre t => t.Allowed (fingersAfter pre)) ts

/-- Whenever the active finger is lifted, the finger that takes over has its id as index. -/
def HandsOverInOrder (v : MultiTouchEvent K) (point : K × K) (ts : List (Touch K)) : Prop :=
  EveryStep (fun pre t => ∀ g, run v point pre = some g → g.InOrder t) ts

/-- The finger that goes down is active and leaves the picture, and every later event is
handled smoothly. -/
structure FollowsFingers (v : MultiTouchEvent K) (point : K × K) (ts : List (Touch K)) :
    Prop where
  start : ∃ g, Gesture.start v point = some g ∧ g.Held ∧ g.view.offset = v.offset
  smooth : EveryStep (fun pre t => ∃ g, run v point pre = some g ∧ g.Smooth t) ts

theorem fingers_of_step {g' : Gesture K} (h : g.step t = some g') :
    g'.fingers = t.fingers g.fingers := by
  obtain ⟨view, -, hview⟩ := Option.bind_eq_some_iff.mp h
  cases hview
  rfl

/-- The run lemma. -/
theorem steady_run {v : MultiTouchEvent K} {point : K × K} {ts : List (Touch K)}
    (hpermitted : Permitted ts) (horder : HandsOverInOrder v point ts) :
    EveryPrefix (fun pre => ∃ g, run v point pre = some g ∧ g.Steady ∧
      g.fingers = fingersAfter pre) ts := by
  have hconditions : EveryStep (fun pre t => t.Allowed (fingersAfter pre) ∧
      ∀ g, run v point pre = some g → g.InOrder t) ts :=
    fun pre t hpre => ⟨hpermitted pre t hpre, horder pre t hpre⟩
  refine EveryPrefix.of_step ?_ ?_ hconditions
  · obtain ⟨g, hstart, hsteady, -⟩ := steady_start v point
    refine ⟨g, hstart, hsteady, ?_⟩
    cases hstart
    rfl
  · rintro pre t ⟨hallowed, hnext⟩ ⟨g, hrun, hsteady, hfingers⟩
    rw [← hfingers] at hallowed
    obtain ⟨g', hstep, hsteady', -⟩ := hsteady.step hallowed (hnext g hrun)
    refine ⟨g', by rw [run_append_singleton, hrun, Option.bind_some, hstep], hsteady', ?_⟩
    rw [fingers_of_step hstep, hfingers, fingersAfter, fingersAfter, after_append_singleton]

/-- In every permitted gesture in which fingers take over in order, no index is out of
range, the active finger stays down, and the picture follows it. -/
theorem followsFingers_of_inOrder (v : MultiTouchEvent K) (point : K × K) (ts : List (Touch K))
    (hpermitted : Permitted ts) (horder : HandsOverInOrder v point ts) :
    FollowsFingers v point ts := by
  constructor
  · obtain ⟨g, hstart, hsteady, hoffset⟩ := steady_start v point
    exact ⟨g, hstart, hsteady.held, hoffset⟩
  · intro pre t hpre
    obtain ⟨g, hrun, hsteady, hfingers⟩ := steady_run hpermitted horder pre
      ((List.prefix_append pre [t]).trans hpre)
    have hallowed : t.Allowed g.fingers := by
      rw [hfingers]
      exact hpermitted pre t hpre
    obtain ⟨g', hstep, hsteady', hoffset⟩ := hsteady.step hallowed (horder pre t hpre g hrun)
    exact ⟨g, hrun, g', hstep, hsteady'.held, hoffset⟩

instance (fingers : Fingers) : (t : Touch K) → Decidable (t.Allowed fingers)
  | .move _ => .isTrue trivial
  | .press _ => .isTrue trivial
  | .lift index _ => inferInstanceAs (Decidable (index < fingers.ids.length ∧ 2 ≤ fingers.ids.length))

instance (ts : List (Touch K)) : Decidable (Permitted ts) :=
  inferInstanceAs (Decidable (EveryStep _ ts))

/-- The picture at the origin. -/
def resting : MultiTouchEvent ℤ := ⟨0, 0, 0, 0⟩

/-- A second finger drags, is lifted, and the first one drags on. -/
def twoFingers : List (Touch ℤ) :=
  [.press fun id => (id, 0), .move fun id => (id, 5), .lift 1 fun id => (id, 5),
    .move fun id => (id, 7)]

theorem followsFingers_twoFingers : FollowsFingers resting (0, 0) twoFingers := by
  apply followsFingers_of_inOrder
  · decide
  · rw [HandsOverInOrder, everyStep_iff_getElem]
    intro i hi g hrun
    have hi' : i < 4 := hi
    interval_cases i
    · trivial
    · trivial
    · cases hrun
      exact fun _ => rfl
    · trivial

/-- A third finger goes down, the second one is lifted and put down again, and then the
first and the second one are lifted: the third has the id 2 and the index 1 among two. -/
def outOfOrder : List (Touch ℤ) :=
  [.press fun id => (id, 0), .press fun id => (id, 0), .lift 1 fun id => (id, 0),
    .press fun id => (id, 0), .lift 0 fun id => (id, 0), .lift 0 fun id => (id, 0)]

theorem not_followsFingers_outOfOrder :
    ¬ ∀ (v : MultiTouchEvent ℤ) (point : ℤ × ℤ) (ts : List (Touch ℤ)), Permitted ts →
      FollowsFingers v point ts := by
  intro hlaw
  have hfollows := hlaw resting (0, 0) outOfOrder (by decide)
  obtain ⟨g, hrun, g', hstep, -⟩ := hfollows.smooth (outOfOrder.take 5) (.lift 0 fun id => (id, 0))
    (List.prefix_refl _)
  cases hrun
  cases hstep

end Gesture

end StudyNotes.View
