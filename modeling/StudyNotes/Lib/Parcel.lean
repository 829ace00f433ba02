/-
# Parcels

A parcel is a first-in first-out store of typed values: a write appends at the end, and
a read takes what stands at the front.  What a class writes of itself and how it is
created again belong together in a `Creator`, which carries the proof that the one
reads exactly what the other wrote; typed lists of its objects are then read back as a
whole.
-/

import StudyNotes.Lib.Text
import StudyNotes.Lib.Fallible

namespace StudyNotes.Parcels

open StudyNotes.Text

/-- What one write leaves in the store. -/
inductive Value
  | token (descriptor : Str)
  | int (n : Int)
  | string (text : Option Str)
deriving DecidableEq, Repr

/-- The values written and not yet read, oldest first. -/
abbrev Parcel := List Value

/-- What goes wrong when a side reads other than what was written for it. -/
inductive Fault
  | badParcel
  | securityException
  | remoteException (code : Int)
deriving DecidableEq, Repr

/-- A new parcel is empty. -/
def obtain : Parcel := []

def writeInterfaceToken (descriptor : Str) (parcel : Parcel) : Parcel :=
  parcel ++ [.token descriptor]

def writeInt (n : Int) (parcel : Parcel) : Parcel :=
  parcel ++ [.int n]

def writeString (text : Option Str) (parcel : Parcel) : Parcel :=
  parcel ++ [.string text]

/-- Nothing went wrong: the code 0 stands before the results. -/
def writeNoException (parcel : Parcel) : Parcel :=
  writeInt 0 parcel

/-- The token at the front must be the expected one. -/
def enforceInterface (descriptor : Str) : Parcel → Except Fault Parcel
  | .token written :: parcel =>
      if written = descriptor then .ok parcel else .error .securityException
  | _ => .error .badParcel

def readInt : Parcel → Except Fault (Int × Parcel)
  | .int n :: parcel => .ok (n, parcel)
  | _ => .error .badParcel

def readString : Parcel → Except Fault (Option Str × Parcel)
  | .string text :: parcel => .ok (text, parcel)
  | _ => .error .badParcel

/-- A code other than 0 at the front is thrown on the reading side. -/
def readException (parcel : Parcel) : Except Fault Parcel := do
  let (code, parcel) ← readInt parcel
  if code = 0 then return parcel else throw (.remoteException code)

@[simp] theorem enforceInterface_token (descriptor : Str) (parcel : Parcel) :
    enforceInterface descriptor (.token descriptor :: parcel) = .ok parcel :=
  if_pos rfl

@[simp] theorem readInt_int (n : Int) (parcel : Parcel) :
    readInt (.int n :: parcel) = .ok (n, parcel) := rfl

@[simp] theorem readString_string (text : Option Str) (parcel : Parcel) :
    readString (.string text :: parcel) = .ok (text, parcel) := rfl

@[simp] theorem readException_zero (parcel : Parcel) :
    readException (.int 0 :: parcel) = .ok parcel := rfl

/-! ## Objects -/

/-- How the objects of a class are written and created again.  The values written for an
object are the ones its creation takes from the front, whatever was written before
them and whatever follows. -/
structure Creator (α : Type) where
  writeToParcel : α → Parcel → Parcel
  createFromParcel : Parcel → Except Fault (α × Parcel)
  values : α → List Value
  write_eq : ∀ a parcel, writeToParcel a parcel = parcel ++ values a
  create_eq : ∀ a parcel, createFromParcel (values a ++ parcel) = .ok (a, parcel)

namespace Creator

variable {α : Type} (creator : Creator α)

/-- An object behind the marker 1, or the marker 0 for null. -/
def writeTypedObject (item : Option α) (parcel : Parcel) : Parcel :=
  match item with
  | some a => creator.writeToParcel a (writeInt 1 parcel)
  | none => writeInt 0 parcel

def readTypedObject (parcel : Parcel) : Except Fault (Option α × Parcel) := do
  let (marker, parcel) ← readInt parcel
  if marker ≠ 0 then
    let (a, parcel) ← creator.createFromParcel parcel
    return (some a, parcel)
  else
    return (none, parcel)

/-- A list is its length and then its elements; null is the length -1. -/
def writeTypedList (items : Option (List (Option α))) (parcel : Parcel) : Parcel :=
  match items with
  | none => writeInt (-1) parcel
  | some items =>
      items.foldl (fun parcel item => creator.writeTypedObject item parcel)
        (writeInt items.length parcel)

/-- The loop over the elements, with the number still to read. -/
def readTypedObjects : Nat → Parcel → Except Fault (List (Option α) × Parcel)
  | 0, parcel => .ok ([], parcel)
  | n + 1, parcel => do
      let (item, parcel) ← creator.readTypedObject parcel
      let (items, parcel) ← readTypedObjects n parcel
      return (item :: items, parcel)

def createTypedArrayList (parcel : Parcel) :
    Except Fault (Option (List (Option α)) × Parcel) := do
  let (n, parcel) ← readInt parcel
  if n < 0 then
    return (none, parcel)
  else
    let (items, parcel) ← creator.readTypedObjects n.toNat parcel
    return (some items, parcel)

/-- What `writeTypedObject` appends. -/
def objectValues : Option α → List Value
  | some a => .int 1 :: creator.values a
  | none => [.int 0]

/-- What `writeTypedList` appends. -/
def listValues : Option (List (Option α)) → List Value
  | none => [.int (-1)]
  | some items => .int items.length :: items.flatMap creator.objectValues

theorem writeTypedObject_eq (item : Option α) (parcel : Parcel) :
    creator.writeTypedObject item parcel = parcel ++ creator.objectValues item := by
  cases item with
  | none => rfl
  | some a => simp [writeTypedObject, objectValues, writeInt, creator.write_eq]

theorem readTypedObject_objectValues (item : Option α) (parcel : Parcel) :
    creator.readTypedObject (creator.objectValues item ++ parcel) = .ok (item, parcel) := by
  cases item with
  | none => rfl
  | some a =>
      simp [readTypedObject, objectValues, creator.create_eq, bind, Except.bind, pure,
        Except.pure]

theorem foldl_writeTypedObject (items : List (Option α)) (parcel : Parcel) :
    items.foldl (fun parcel item => creator.writeTypedObject item parcel) parcel =
      parcel ++ items.flatMap creator.objectValues := by
  induction items generalizing parcel with
  | nil => simp
  | cons item items ih =>
      rw [List.foldl_cons, ih, writeTypedObject_eq, List.flatMap_cons, List.append_assoc]

theorem readTypedObjects_objectValues (items : List (Option α)) (parcel : Parcel) :
    creator.readTypedObjects items.length (items.flatMap creator.objectValues ++ parcel) =
      .ok (items, parcel) := by
  induction items with
  | nil => rfl
  | cons item items ih =>
      rw [List.flatMap_cons, List.append_assoc, List.length_cons, readTypedObjects,
        readTypedObject_objectValues]
      simp only [bind, Except.bind]
      rw [ih]
      rfl

theorem writeTypedList_eq (items : Option (List (Option α))) (parcel : Parcel) :
    creator.writeTypedList items parcel = parcel ++ creator.listValues items := by
  cases items with
  | none => rfl
  | some items =>
      rw [writeTypedList, foldl_writeTypedObject, writeInt, listValues, List.append_assoc]
      rfl

/-- A typed list is read back as it was written, and nothing of what follows it is. -/
theorem createTypedArrayList_listValues (items : Option (List (Option α)))
    (parcel : Parcel) :
    creator.createTypedArrayList (creator.listValues items ++ parcel) =
      .ok (items, parcel) := by
  cases items with
  | none => rfl
  | some items =>
      have hlength : ¬ ((items.length : Int) < 0) := by omega
      simp only [listValues, createTypedArrayList, List.cons_append, readInt_int, bind,
        Except.bind, if_neg hlength, Int.toNat_natCast, readTypedObjects_objectValues]
      rfl

end Creator

end StudyNotes.Parcels
