/-
# The auto-clicker

`MyAccessibilityService` walks the node tree of every window event in pre-order, scrolls
the scroll views it passes and stops at the first button it may click.  The window is
then entered in a map that lives as long as the service, and its later events are left
alone.  A walk is determined by the pre-order sequence of its tree, and the map by the
events so far.
-/

import Mathlib.Data.List.Basic
import StudyNotes.Lib.Run

namespace StudyNotes.Accessibility

open StudyNotes.Run

variable {α : Type}

/-! ## Nodes -/

/-- `AccessibilityNodeInfo`, with something that tells the nodes apart. -/
inductive NodeInfo (α : Type) where
  | mk (handle : α) (className : Option String) (text : String) (children : List (NodeInfo α))

namespace NodeInfo

def handle : NodeInfo α → α
  | .mk handle _ _ _ => handle

def className : NodeInfo α → Option String
  | .mk _ className _ _ => className

def text : NodeInfo α → String
  | .mk _ _ text _ => text

def isButton (node : NodeInfo α) : Bool := node.className = some "android.widget.Button"

def isScrollView (node : NodeInfo α) : Bool := node.className = some "android.widget.ScrollView"

/-- A button with one of the three texts. -/
def isAccepted (node : NodeInfo α) : Bool :=
  node.isButton && decide (node.text ∈ ["安装", "完成", "确定"])

mutual

/-- The nodes of a tree in pre-order. -/
def preorder : NodeInfo α → List (NodeInfo α)
  | .mk handle className text children =>
      .mk handle className text children :: preorderAll children

/-- The nodes of several trees, one tree after the other. -/
def preorderAll : List (NodeInfo α) → List (NodeInfo α)
  | [] => []
  | node :: nodes => preorder node ++ preorderAll nodes

end

end NodeInfo

/-! ## The service -/

/-- What is done to a node. -/
inductive Action (α : Type) where
  | click (node : α)
  | scrollForward (node : α)
deriving DecidableEq

def Action.isClick : Action α → Bool
  | .click _ => true
  | .scrollForward _ => false

mutual

/-- `iterateNodesAndHandle`: the actions in their order, and what it returns. -/
def iterateNodesAndHandle : NodeInfo α → List (Action α) × Bool
  | .mk handle className text children =>
      if className = some "android.widget.Button" then
        if text ∈ ["安装", "完成", "确定"] then ([.click handle], true)
        else iterateChildren children
      else if className = some "android.widget.ScrollView" then
        let (actions, handled) := iterateChildren children
        (.scrollForward handle :: actions, handled)
      else iterateChildren children

/-- The loop over the children, which returns at the first that was handled. -/
def iterateChildren : List (NodeInfo α) → List (Action α) × Bool
  | [] => ([], false)
  | child :: children =>
      let (actions, handled) := iterateNodesAndHandle child
      if handled then (actions, true)
      else
        let (more, handled) := iterateChildren children
        (actions ++ more, handled)

end

/-- `AccessibilityEvent`. -/
structure Event (α : Type) where
  eventType : Int32
  windowId : Int32
  source : Option (NodeInfo α)

/-- `TYPE_WINDOW_STATE_CHANGED`. -/
def typeWindowStateChanged : Int32 := 0x00000020

/-- `TYPE_WINDOW_CONTENT_CHANGED`. -/
def typeWindowContentChanged : Int32 := 0x00000800

/-- The service: its `handleMap`, and the actions it has performed, each with the window
of the event. -/
structure MyAccessibilityService (α : Type) where
  handleMap : Int32 → Option Bool
  performed : List (Int32 × Action α)

namespace MyAccessibilityService

def new : MyAccessibilityService α := ⟨fun _ => none, []⟩

def onAccessibilityEvent (service : MyAccessibilityService α) :
    Option (Event α) → MyAccessibilityService α
  | none => service
  | some event =>
      match event.source with
      | none => service
      | some source =>
          if event.eventType = typeWindowContentChanged ∨
              event.eventType = typeWindowStateChanged then
            if service.handleMap event.windowId = none then
              let (actions, handled) := iterateNodesAndHandle source
              { handleMap := fun windowId =>
                  if handled ∧ windowId = event.windowId then some true
                  else service.handleMap windowId
                performed := service.performed ++ actions.map fun action =>
                  (event.windowId, action) }
            else service
          else service

/-- The service after a sequence of events. -/
def afterEvents (events : List (Option (Event α))) : MyAccessibilityService α :=
  after onAccessibilityEvent new events

end MyAccessibilityService

/-! ## A walk -/

/-- What a walk along some nodes does: it scrolls the scroll views before the first
accepted button, and clicks that. -/
def walk (nodes : List (NodeInfo α)) : List (Action α) :=
  ((nodes.takeWhile (!·.isAccepted)).filter NodeInfo.isScrollView).map (.scrollForward ·.handle) ++
    (nodes.find? NodeInfo.isAccepted).toList.map (.click ·.handle)

section Walk

variable {node : NodeInfo α} {nodes nodes' : List (NodeInfo α)}

theorem walk_cons_of_accepted (h : node.isAccepted = true) :
    walk (node :: nodes) = [.click node.handle] := by
  simp [walk, h]

theorem walk_cons_of_not_accepted (h : node.isAccepted = false) :
    walk (node :: nodes) =
      (if node.isScrollView then [.scrollForward node.handle] else []) ++ walk nodes := by
  by_cases hscroll : node.isScrollView = true
  · simp [walk, h, hscroll]
  · simp [walk, h, hscroll]

/-- A walk ends where it has clicked, and goes on otherwise. -/
theorem walk_append :
    walk (nodes ++ nodes') =
      if nodes.any NodeInfo.isAccepted then walk nodes else walk nodes ++ walk nodes' := by
  induction nodes with
  | nil => simp [walk]
  | cons node nodes ih =>
      rw [List.cons_append, List.any_cons]
      cases h : node.isAccepted with
      | true => rw [walk_cons_of_accepted h, walk_cons_of_accepted h, Bool.true_or, if_pos rfl]
      | false =>
          rw [walk_cons_of_not_accepted h, walk_cons_of_not_accepted h, ih, Bool.false_or]
          cases hany : nodes.any NodeInfo.isAccepted with
          | true => rw [if_pos rfl, if_pos rfl]
          | false =>
              rw [if_neg Bool.false_ne_true, if_neg Bool.false_ne_true, List.append_assoc]

/-- A walk clicks once where there is an accepted button, and never otherwise. -/
theorem countP_isClick_walk (nodes : List (NodeInfo α)) :
    (walk nodes).countP Action.isClick = if nodes.any NodeInfo.isAccepted then 1 else 0 := by
  induction nodes with
  | nil => rfl
  | cons node nodes ih =>
      rw [List.any_cons]
      cases h : node.isAccepted with
      | true => simp [walk_cons_of_accepted h, Action.isClick]
      | false =>
          rw [walk_cons_of_not_accepted h, List.countP_append, ih, Bool.false_or]
          split
          · simp [Action.isClick]
          · simp

end Walk

/-! ## The recursion is the walk -/

/-- A button is not a scroll view. -/
theorem not_isScrollView_of_button {handle : α} {text : String} {children : List (NodeInfo α)} :
    (NodeInfo.mk handle (some "android.widget.Button") text children).isScrollView = false := by
  simp [NodeInfo.isScrollView, NodeInfo.className]

mutual

theorem iterateNodesAndHandle_eq : ∀ node : NodeInfo α,
    iterateNodesAndHandle node = (walk node.preorder, node.preorder.any NodeInfo.isAccepted)
  | .mk handle className text children => by
      have hchildren := iterateChildren_eq children
      rw [NodeInfo.preorder, List.any_cons]
      by_cases hbutton : className = some "android.widget.Button"
      · subst hbutton
        by_cases htext : text ∈ ["安装", "完成", "确定"]
        · have haccepted : (NodeInfo.mk handle (some "android.widget.Button") text
              children).isAccepted = true := by
            simpa [NodeInfo.isAccepted, NodeInfo.isButton, NodeInfo.className, NodeInfo.text]
              using htext
          rw [walk_cons_of_accepted haccepted, haccepted, iterateNodesAndHandle, if_pos rfl,
            if_pos htext, Bool.true_or]
          rfl
        · have haccepted : (NodeInfo.mk handle (some "android.widget.Button") text
              children).isAccepted = false := by
            simpa [NodeInfo.isAccepted, NodeInfo.isButton, NodeInfo.className, NodeInfo.text]
              using htext
          rw [walk_cons_of_not_accepted haccepted, not_isScrollView_of_button, haccepted,
            iterateNodesAndHandle, if_pos rfl, if_neg htext, hchildren, Bool.false_or]
          simp
      · have haccepted : (NodeInfo.mk handle className text children).isAccepted = false := by
          simp [NodeInfo.isAccepted, NodeInfo.isButton, NodeInfo.className, hbutton]
        rw [walk_cons_of_not_accepted haccepted, haccepted, iterateNodesAndHandle, if_neg hbutton,
          hchildren, Bool.false_or]
        by_cases hscroll : className = some "android.widget.ScrollView"
        · simp [hscroll, NodeInfo.isScrollView, NodeInfo.className, NodeInfo.handle]
        · simp [hscroll, NodeInfo.isScrollView, NodeInfo.className]

theorem iterateChildren_eq : ∀ nodes : List (NodeInfo α),
    iterateChildren nodes =
      (walk (NodeInfo.preorderAll nodes), (NodeInfo.preorderAll nodes).any NodeInfo.isAccepted)
  | [] => rfl
  | node :: nodes => by
      have hnode := iterateNodesAndHandle_eq node
      have hnodes := iterateChildren_eq nodes
      rw [iterateChildren, NodeInfo.preorderAll, walk_append, List.any_append, hnode, hnodes]
      cases hany : node.preorder.any NodeInfo.isAccepted with
      | true => rfl
      | false => rfl

end

/-! ## Sequences of events -/

/-- The window and the tree of an event that the service looks at. -/
def relevant : Option (Event α) → Option (Int32 × NodeInfo α)
  | none => none
  | some event =>
      if event.eventType = typeWindowContentChanged ∨ event.eventType = typeWindowStateChanged then
        event.source.map fun source => (event.windowId, source)
      else none

/-- An event of a handled type for the window whose tree has an accepted button. -/
def hasAccepted (windowId : Int32) (event : Option (Event α)) : Bool :=
  match relevant event with
  | none => false
  | some (id, root) => id = windowId && root.preorder.any NodeInfo.isAccepted

/-- What an event is answered with: nothing where an earlier event of its window had an
accepted button, and a walk otherwise. -/
def answer (before : List (Option (Event α))) (event : Option (Event α)) :
    List (Int32 × Action α) :=
  match relevant event with
  | none => []
  | some (windowId, root) =>
      if before.any (hasAccepted windowId) then []
      else (walk root.preorder).map fun action => (windowId, action)

namespace MyAccessibilityService

/-- One event, by what is relevant of it. -/
theorem onAccessibilityEvent_eq (service : MyAccessibilityService α) (event : Option (Event α)) :
    service.onAccessibilityEvent event =
      match relevant event with
      | none => service
      | some (windowId, root) =>
          if service.handleMap windowId = none then
            { handleMap := fun id =>
                if root.preorder.any NodeInfo.isAccepted ∧ id = windowId then some true
                else service.handleMap id
              performed := service.performed ++
                (walk root.preorder).map fun action => (windowId, action) }
          else service := by
  cases event with
  | none => rfl
  | some event =>
      rw [onAccessibilityEvent, relevant]
      cases event.source with
      | none => simp
      | some source =>
          simp only [iterateNodesAndHandle_eq, Option.map_some]
          by_cases htype : event.eventType = typeWindowContentChanged ∨
              event.eventType = typeWindowStateChanged
          · rw [if_pos htype, if_pos htype]
          · rw [if_neg htype, if_neg htype]

/-- The map holds the windows that had an accepted button, and each was clicked once. -/
structure Tracks (service : MyAccessibilityService α) (before : List (Option (Event α))) :
    Prop where
  handleMap : ∀ windowId, service.handleMap windowId = none ↔
    before.any (hasAccepted windowId) = false
  clicks : ∀ windowId, service.performed.countP (fun p => p.1 = windowId && p.2.isClick) =
    if before.any (hasAccepted windowId) then 1 else 0

theorem tracks_new : Tracks (new : MyAccessibilityService α) [] where
  handleMap := fun _ => by simp [new]
  clicks := fun _ => by simp [new]

/-- The clicks of a walk that belong to a window. -/
theorem countP_walk (windowId id : Int32) (nodes : List (NodeInfo α)) :
    ((walk nodes).map fun action => (id, action)).countP
        (fun p => p.1 = windowId && p.2.isClick) =
      if id = windowId && nodes.any NodeInfo.isAccepted then 1 else 0 := by
  rw [List.countP_map]
  by_cases hid : id = windowId
  · have hclick := countP_isClick_walk nodes
    simpa [hid, Function.comp_def] using hclick
  · simp [hid, Function.comp_def]

variable {service : MyAccessibilityService α} {before : List (Option (Event α))}
  {event : Option (Event α)}

theorem Tracks.performed (h : service.Tracks before) :
    (service.onAccessibilityEvent event).performed =
      service.performed ++ answer before event := by
  rw [onAccessibilityEvent_eq, answer]
  cases hrelevant : relevant event with
  | none => simp
  | some found =>
      obtain ⟨windowId, root⟩ := found
      simp only [h.handleMap windowId]
      cases before.any (hasAccepted windowId) with
      | true => simp
      | false => simp

/-- An event leaves the map alone, or enters its window for its first accepted button. -/
theorem Tracks.handleMap_step (h : service.Tracks before) (windowId : Int32) :
    (service.onAccessibilityEvent event).handleMap windowId = none ↔
      (before ++ [event]).any (hasAccepted windowId) = false := by
  have hbefore := h.handleMap windowId
  rw [List.any_append, Bool.or_eq_false_iff, List.any_cons, List.any_nil, Bool.or_false,
    ← hbefore, onAccessibilityEvent_eq, hasAccepted]
  cases hrelevant : relevant event with
  | none => simp
  | some found =>
      obtain ⟨id, root⟩ := found
      simp only
      split
      · by_cases hid : windowId = id
        · subst hid
          cases root.preorder.any NodeInfo.isAccepted with
          | true => simp
          | false => simp
        · simp [hid, Ne.symm hid]
      · rename_i hmap
        by_cases hid : windowId = id
        · subst hid
          simp [hmap]
        · simp [Ne.symm hid]

theorem Tracks.onAccessibilityEvent (h : service.Tracks before) :
    (service.onAccessibilityEvent event).Tracks (before ++ [event]) where
  handleMap := h.handleMap_step
  clicks := by
    intro windowId
    rw [h.performed, List.countP_append, h.clicks, answer, List.any_append, List.any_cons,
      List.any_nil, Bool.or_false, hasAccepted]
    cases hrelevant : relevant event with
    | none => simp
    | some found =>
        obtain ⟨id, root⟩ := found
        have hwalk := countP_walk windowId id root.preorder
        by_cases hid : id = windowId
        · subst hid
          rw [decide_eq_true rfl, Bool.true_and] at hwalk
          simp only [decide_true, Bool.true_and]
          cases before.any (hasAccepted id) with
          | true => simp only [if_true, List.countP_nil, Bool.true_or]
          | false =>
              simp only [Bool.false_eq_true, if_false, Bool.false_or, Nat.zero_add]
              exact hwalk
        · rw [decide_eq_false hid, Bool.false_and, if_neg Bool.false_ne_true] at hwalk
          simp only [decide_eq_false hid, Bool.false_and, Bool.or_false]
          cases before.any (hasAccepted id) with
          | true => rw [if_pos rfl, List.countP_nil, Nat.add_zero]
          | false => rw [if_neg Bool.false_ne_true, hwalk, Nat.add_zero]

theorem tracks_afterEvents (events : List (Option (Event α))) :
    (afterEvents events).Tracks events := by
  induction events using List.reverseRecOn with
  | nil => exact tracks_new
  | append_singleton events event ih =>
      rw [afterEvents, after_append_singleton]
      exact ih.onAccessibilityEvent

/-- Every event is answered as it should be, and no window is clicked twice. -/
theorem clicks_once_per_window (events : List (Option (Event α))) :
    EveryStep (fun before event =>
      (afterEvents (before ++ [event])).performed =
        (afterEvents before).performed ++ answer before event) events ∧
    ∀ windowId, (afterEvents events).performed.countP
      (fun p => p.1 = windowId && p.2.isClick) ≤ 1 := by
  constructor
  · intro before event _
    rw [afterEvents, after_append_singleton]
    exact (tracks_afterEvents before).performed
  · intro windowId
    rw [(tracks_afterEvents events).clicks]
    split
    · exact Nat.le_refl 1
    · exact Nat.zero_le 1

/-- A dialog with a scroll view around a button with another text and two accepted ones. -/
example : walk (NodeInfo.preorder (.mk 0 none ""
    [.mk 1 (some "android.widget.ScrollView") ""
      [.mk 2 (some "android.widget.Button") "取消" [], .mk 3 (some "android.widget.Button") "确定" []],
      .mk 4 (some "android.widget.Button") "安装" []])) =
    [.scrollForward 1, .click 3] := by
  decide

end MyAccessibilityService

end StudyNotes.Accessibility
