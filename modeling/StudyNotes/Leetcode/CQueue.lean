/-
# A queue made of two stacks

`CQueue` pushes to one stack and pops from another, and moves everything over when the
second one is empty.  The second stack holds the oldest values, oldest on top, and the
first one the others, newest on top.  Read together in this order they are a plain queue.
-/

import StudyNotes.Lib.Refinement

namespace StudyNotes.Leetcode

open StudyNotes.Refinement

/-! ## The queue -/

/-- The two stacks, with the top of each first. -/
structure CQueue where
  stack1 : List Int32
  stack2 : List Int32
deriving DecidableEq

inductive QueueCall where
  | appendTail (value : Int32)
  | deleteHead
deriving DecidableEq

namespace CQueue

def new : CQueue := ⟨[], []⟩

def appendTail (queue : CQueue) (value : Int32) : CQueue :=
  { queue with stack1 := value :: queue.stack1 }

/-- The loop that pops from the first stack and pushes to the second. -/
def moveAll : List Int32 → List Int32 → List Int32
  | [], stack2 => stack2
  | value :: stack1, stack2 => moveAll stack1 (value :: stack2)

def deleteHead (queue : CQueue) : Int32 × CQueue :=
  match queue.stack2 with
  | value :: stack2 => (value, { queue with stack2 := stack2 })
  | [] =>
      match moveAll queue.stack1 [] with
      | [] => (-1, ⟨[], []⟩)
      | value :: stack2 => (value, ⟨[], stack2⟩)

/-- Both calls; `appendTail` returns nothing. -/
def machine : Machine CQueue QueueCall (Option Int32)
  | queue, .appendTail value => (none, queue.appendTail value)
  | queue, .deleteHead => (some queue.deleteHead.1, queue.deleteHead.2)

end CQueue

/-! ## A plain queue -/

/-- A plain queue, with the oldest value first. -/
def plainQueue : Machine (List Int32) QueueCall (Option Int32)
  | queue, .appendTail value => (none, queue ++ [value])
  | [], .deleteHead => (some (-1), [])
  | value :: queue, .deleteHead => (some value, queue)

/-- The values that are appended. -/
def appended : List QueueCall → List Int32
  | [] => []
  | .appendTail value :: calls => value :: appended calls
  | .deleteHead :: calls => appended calls

namespace CQueue

/-- The values in the order in which they were appended. -/
def contents (queue : CQueue) : List Int32 := queue.stack2 ++ queue.stack1.reverse

/-- The values that `deleteHead` takes out in a run. -/
def removed : CQueue → List QueueCall → List Int32
  | _, [] => []
  | queue, .appendTail value :: calls => (queue.appendTail value).removed calls
  | queue, .deleteHead :: calls =>
      if queue.contents = [] then queue.deleteHead.2.removed calls
      else queue.deleteHead.1 :: queue.deleteHead.2.removed calls

variable {queue : CQueue}

theorem moveAll_eq (stack1 stack2 : List Int32) :
    moveAll stack1 stack2 = stack1.reverse ++ stack2 := by
  induction stack1 generalizing stack2 with
  | nil => rfl
  | cons value stack1 ih => rw [moveAll, ih, List.reverse_cons, List.append_assoc,
      List.singleton_append]

@[simp] theorem contents_appendTail (value : Int32) :
    (queue.appendTail value).contents = queue.contents ++ [value] := by
  simp [contents, appendTail]

/-- `deleteHead` does to the contents what a plain queue does. -/
theorem deleteHead_cases (queue : CQueue) :
    queue.contents = [] ∧ queue.deleteHead = (-1, queue) ∨
      ∃ value rest, queue.contents = value :: rest ∧ queue.deleteHead.1 = value ∧
        queue.deleteHead.2.contents = rest := by
  obtain ⟨stack1, stack2⟩ := queue
  cases stack2 with
  | cons value stack2 => exact Or.inr ⟨value, stack2 ++ stack1.reverse, rfl, rfl, rfl⟩
  | nil =>
      rw [contents, List.nil_append, deleteHead, moveAll_eq, List.append_nil]
      cases hmoved : stack1.reverse with
      | nil =>
          have hempty : stack1 = [] := List.reverse_eq_nil_iff.mp hmoved
          subst hempty
          exact Or.inl ⟨rfl, rfl⟩
      | cons value stack2 =>
          refine Or.inr ⟨value, stack2, rfl, rfl, ?_⟩
          simp [contents]

/-- Two stacks are related to the plain queue of their contents. -/
theorem refines : Machine.Refines machine plainQueue (fun queue plain => queue.contents = plain)
    fun _ _ => True where
  answer := by
    rintro queue _ (value | -) rfl -
    · rfl
    · rcases queue.deleteHead_cases with ⟨hempty, hdelete⟩ | ⟨value, rest, hcontents, hvalue, -⟩
      · simp [machine, hempty, hdelete, plainQueue]
      · simp [machine, hcontents, hvalue, plainQueue]
  next := by
    rintro queue _ (value | -) rfl -
    · exact contents_appendTail value
    · rcases queue.deleteHead_cases with ⟨hempty, hdelete⟩ | ⟨value, rest, hcontents, -, hrest⟩
      · simp [machine, hempty, hdelete, plainQueue]
      · simp [machine, hcontents, hrest, plainQueue]

/-- What was there and what is appended is taken out in order, or is there still. -/
theorem contents_append_appended (queue : CQueue) (calls : List QueueCall) :
    queue.contents ++ appended calls =
      queue.removed calls ++ (machine.final queue calls).contents := by
  induction calls generalizing queue with
  | nil => simp [appended, removed, Machine.final]
  | cons call calls ih =>
      cases call with
      | appendTail value =>
          have hrest := ih (queue.appendTail value)
          rw [contents_appendTail, List.append_assoc, List.singleton_append] at hrest
          exact hrest
      | deleteHead =>
          have hrest := ih queue.deleteHead.2
          have hstate : (machine queue .deleteHead).2 = queue.deleteHead.2 := rfl
          rw [appended, removed, Machine.final, hstate]
          rcases queue.deleteHead_cases with ⟨hempty, hdelete⟩ |
            ⟨value, rest, hcontents, hvalue, hrest'⟩
          · rw [if_pos hempty]
            rw [hdelete] at hrest ⊢
            exact hrest
          · rw [if_neg (by rw [hcontents]; exact List.cons_ne_nil _ _), hcontents, hvalue,
              List.cons_append, List.cons_append]
            rw [hrest'] at hrest
            exact congrArg _ hrest

/-- In every run from the empty queue the calls answer as those of a plain queue, and every
value that was appended has been taken out in its turn or is still there, in order. -/
theorem answers_eq_plainQueue (calls : List QueueCall) :
    machine.answers new calls = plainQueue.answers [] calls ∧
      appended calls = new.removed calls ++ (machine.final new calls).contents := by
  refine ⟨refines.answers_eq rfl ?_, contents_append_appended new calls⟩
  exact Machine.admitted_of_forall (fun _ _ => trivial) [] calls

end CQueue

end StudyNotes.Leetcode
