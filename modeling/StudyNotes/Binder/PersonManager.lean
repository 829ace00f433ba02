/-
# The person manager over binder

`Proxy` and `Stub` are the two hand-written halves of one interface.  The proxy writes
a call's arguments into a parcel, the stub reads them, calls the implementation and
writes the results into the reply, and the proxy reads these.  Over any sequence of
calls the two halves together are the implementation itself: each side reads
exactly what the other wrote, the results are the ones of direct calls, and the
server goes through the same states.
-/

import StudyNotes.Lib.Parcel

namespace StudyNotes.Binder

open StudyNotes.Text StudyNotes.Parcels

/-! ## `Person` -/

structure Person where
  name : Option Str
  grade : Int
deriving DecidableEq, Repr

namespace Person

def writeToParcel (person : Person) (parcel : Parcel) : Parcel :=
  writeInt person.grade (writeString person.name parcel)

def createFromParcel (parcel : Parcel) : Except Fault (Person × Parcel) := do
  let (name, parcel) ← readString parcel
  let (grade, parcel) ← readInt parcel
  return (⟨name, grade⟩, parcel)

/-- The constructor reads the name and the grade in the order they are written in. -/
def CREATOR : Creator Person where
  writeToParcel := writeToParcel
  createFromParcel := createFromParcel
  values person := [.string person.name, .int person.grade]
  write_eq person parcel := by simp [writeToParcel, writeString, writeInt]
  create_eq person parcel := rfl

end Person

/-! ## The interface and its two halves -/

def DESCRIPTOR : Str :=
  "com.chencc.androidstudynotescode.binder.binder.common.IPersonManager".toList

/-- `IBinder.INTERFACE_TRANSACTION` -/
def INTERFACE_TRANSACTION : Int := 0x5f4e5446

/-- `IBinder.FIRST_CALL_TRANSACTION` -/
def FIRST_CALL_TRANSACTION : Int := 1

def TRANSACTION_addPerson : Int := FIRST_CALL_TRANSACTION

def TRANSACTION_getPersonList : Int := FIRST_CALL_TRANSACTION + 1

variable {σ : Type}

/-- An implementation with the state it keeps.  The elements of a list are references,
as everywhere on the JVM. -/
structure IPersonManager (σ : Type) where
  addPerson : Option Person → σ → σ
  getPersonList : σ → Option (List (Option Person)) × σ

/-- What a transaction leaves: whether the code was known, the rest of `data`, the reply
and the state of the server. -/
structure Transaction (σ : Type) where
  handled : Bool
  data : Parcel
  reply : Option Parcel
  server : σ

/-- `Binder.onTransact`, which `Stub` falls back on, is left open. -/
structure Stub (σ : Type) extends IPersonManager σ where
  superOnTransact : Int → Parcel → Option Parcel → σ → Except Fault (Transaction σ)

def Stub.onTransact (stub : Stub σ) (code : Int) (data : Parcel) (reply : Option Parcel)
    (server : σ) : Except Fault (Transaction σ) := do
  if code = INTERFACE_TRANSACTION then
    return ⟨true, data, reply.map (writeString (some DESCRIPTOR)), server⟩
  else if code = TRANSACTION_addPerson then
    let data ← enforceInterface DESCRIPTOR data
    let (marker, data) ← readInt data
    let (arg0, data) ←
      if 0 ≠ marker then
        let (person, data) ← Person.CREATOR.createFromParcel data
        pure (some person, data)
      else
        pure (none, data)
    let server := stub.addPerson arg0 server
    return ⟨true, data, reply.map writeNoException, server⟩
  else if code = TRANSACTION_getPersonList then
    let data ← enforceInterface DESCRIPTOR data
    let (result, server) := stub.getPersonList server
    let reply := reply.map writeNoException
    return ⟨true, data, reply.map (Person.CREATOR.writeTypedList result), server⟩
  else
    stub.superOnTransact code data reply server

/-- A stub seen from its own process (`Binder`) or from another one (`BinderProxy`). -/
structure IBinder (σ : Type) where
  owner : Stub σ
  sameProcess : Bool

def IBinder.transact (binder : IBinder σ) (code : Int) (data : Parcel)
    (reply : Option Parcel) (server : σ) : Except Fault (Transaction σ) :=
  binder.owner.onTransact code data reply server

/-- Only the binder of the same process knows the interface attached by the stub. -/
def IBinder.queryLocalInterface (binder : IBinder σ) (descriptor : Str) : Option (Stub σ) :=
  if binder.sameProcess ∧ descriptor = DESCRIPTOR then some binder.owner else none

/-- A call that returned: its result, the server after it, and what was left unread in
the two parcels. -/
structure Served (ρ σ : Type) where
  result : ρ
  server : σ
  dataUnread : Parcel
  replyUnread : Parcel
deriving DecidableEq, Repr

def Proxy.addPerson (mRemote : IBinder σ) (person : Option Person) (server : σ) :
    Except Fault (Served Unit σ) := do
  let data := writeInterfaceToken DESCRIPTOR obtain
  let data :=
    match person with
    | some person => person.writeToParcel (writeInt 1 data)
    | none => writeInt 0 data
  let done ← mRemote.transact TRANSACTION_addPerson data (some obtain) server
  let reply ← readException (done.reply.getD obtain)
  return ⟨(), done.server, done.data, reply⟩

def Proxy.getPersonList (mRemote : IBinder σ) (server : σ) :
    Except Fault (Served (Option (List (Option Person))) σ) := do
  let data := writeInterfaceToken DESCRIPTOR obtain
  let done ← mRemote.transact TRANSACTION_getPersonList data (some obtain) server
  let reply ← readException (done.reply.getD obtain)
  let (result, reply) ← Person.CREATOR.createTypedArrayList reply
  return ⟨result, done.server, done.data, reply⟩

/-- What `asInterface` hands out: the stub itself, or a proxy for it. -/
inductive Client (σ : Type)
  | stub (stub : Stub σ)
  | proxy (mRemote : IBinder σ)

def Stub.asInterface (binder : Option (IBinder σ)) : Option (Client σ) :=
  match binder with
  | none => none
  | some binder =>
      match binder.queryLocalInterface DESCRIPTOR with
      | some iin => some (.stub iin)
      | none => some (.proxy binder)

/-! ## Calls -/

inductive Call
  | addPerson (person : Option Person)
  | getPersonList
deriving DecidableEq, Repr

/-- What a caller sees of a call that returned. -/
inductive Result
  | unit
  | personList (persons : Option (List (Option Person)))
deriving DecidableEq, Repr

/-- A call made on the implementation itself. -/
def IPersonManager.call (manager : IPersonManager σ) (server : σ) : Call → Result × σ
  | .addPerson person => (.unit, manager.addPerson person server)
  | .getPersonList =>
      (.personList (manager.getPersonList server).1, (manager.getPersonList server).2)

/-- A call made through the proxy. -/
def Proxy.call (mRemote : IBinder σ) (server : σ) : Call → Except Fault (Served Result σ)
  | .addPerson person => do
      let served ← Proxy.addPerson mRemote person server
      return { served with result := .unit }
  | .getPersonList => do
      let served ← Proxy.getPersonList mRemote server
      return { served with result := .personList served.result }

/-- Every call's result with the server after it, in order. -/
def IPersonManager.run (manager : IPersonManager σ) : List Call → σ → List (Result × σ)
  | [], _ => []
  | call :: calls, server =>
      manager.call server call :: manager.run calls (manager.call server call).2

def Proxy.run (mRemote : IBinder σ) : List Call → σ → Except Fault (List (Served Result σ))
  | [], _ => .ok []
  | call :: calls, server => do
      let served ← Proxy.call mRemote server call
      let rest ← Proxy.run mRemote calls served.server
      return served :: rest

/-- A direct call as the proxy would report it with both parcels read to their ends. -/
def wholly (outcome : Result × σ) : Served Result σ :=
  ⟨outcome.1, outcome.2, [], []⟩

/-! ## Each half reads what the other wrote -/

/-- The stub takes the argument and nothing more from what the proxy wrote. -/
theorem Stub.onTransact_addPerson (stub : Stub σ) (person : Option Person) (server : σ) :
    stub.onTransact TRANSACTION_addPerson
        (.token DESCRIPTOR :: Person.CREATOR.objectValues person) (some obtain) server =
      .ok ⟨true, [], some [.int 0], stub.addPerson person server⟩ := by
  rw [Stub.onTransact, if_neg (by decide), if_pos rfl, enforceInterface_token]
  cases person with
  | none => rfl
  | some person => rfl

/-- The stub takes the token and writes the list behind the code 0. -/
theorem Stub.onTransact_getPersonList (stub : Stub σ) (server : σ) :
    stub.onTransact TRANSACTION_getPersonList [.token DESCRIPTOR] (some obtain) server =
      .ok ⟨true, [], some (.int 0 :: Person.CREATOR.listValues (stub.getPersonList server).1),
        (stub.getPersonList server).2⟩ := by
  have hwrite : Person.CREATOR.writeTypedList (stub.getPersonList server).1
      (writeNoException obtain) =
        .int 0 :: Person.CREATOR.listValues (stub.getPersonList server).1 :=
    Person.CREATOR.writeTypedList_eq _ _
  rw [← hwrite, Stub.onTransact, if_neg (by decide), if_neg (by decide), if_pos rfl,
    enforceInterface_token]
  rfl

theorem Proxy.addPerson_eq (mRemote : IBinder σ) (person : Option Person) (server : σ) :
    Proxy.addPerson mRemote person server =
      .ok ⟨(), mRemote.owner.addPerson person server, [], []⟩ := by
  have hdata : Proxy.addPerson mRemote person server = (do
      let done ← mRemote.owner.onTransact TRANSACTION_addPerson
        (.token DESCRIPTOR :: Person.CREATOR.objectValues person) (some obtain) server
      let reply ← readException (done.reply.getD obtain)
      return ⟨(), done.server, done.data, reply⟩) := by
    cases person with
    | none => rfl
    | some person => rfl
  rw [hdata, Stub.onTransact_addPerson]
  rfl

theorem Proxy.getPersonList_eq (mRemote : IBinder σ) (server : σ) :
    Proxy.getPersonList mRemote server =
      .ok ⟨(mRemote.owner.getPersonList server).1, (mRemote.owner.getPersonList server).2,
        [], []⟩ := by
  have hserved := mRemote.owner.onTransact_getPersonList server
  have hread := Person.CREATOR.createTypedArrayList_listValues
    (mRemote.owner.getPersonList server).1 []
  rw [List.append_nil] at hread
  simp only [Proxy.getPersonList, writeInterfaceToken, obtain, List.nil_append,
    IBinder.transact] at hserved ⊢
  rw [hserved]
  simp only [bind, Except.bind, Option.getD_some, readException_zero, hread]
  rfl

/-- One call through the two halves is the direct call. -/
theorem Proxy.call_eq (mRemote : IBinder σ) (server : σ) (call : Call) :
    Proxy.call mRemote server call =
      .ok (wholly (mRemote.owner.toIPersonManager.call server call)) := by
  cases call with
  | addPerson person =>
      rw [Proxy.call, Proxy.addPerson_eq]
      rfl
  | getPersonList =>
      rw [Proxy.call, Proxy.getPersonList_eq]
      rfl

/-- A whole run through the proxy is the run of direct calls, whatever the
implementation behind the stub does. -/
theorem Proxy.run_eq (mRemote : IBinder σ) (calls : List Call) (server : σ) :
    Proxy.run mRemote calls server =
      .ok ((mRemote.owner.toIPersonManager.run calls server).map wholly) := by
  induction calls generalizing server with
  | nil => rfl
  | cons call calls ih =>
      rw [Proxy.run, Proxy.call_eq]
      simp only [bind, Except.bind]
      rw [ih]
      rfl

/-! ## `RemoteService` -/

/-- The field `persons`, null until `onBind`. -/
abbrev Persons := Option (List Person)

namespace RemoteService

def addPerson (person : Option Person) (persons : Persons) : Persons :=
  match person with
  | some person => persons.map (· ++ [person])
  | none => persons

def getPersonList (persons : Persons) : Option (List (Option Person)) × Persons :=
  (persons.map (·.map some), persons)

/-- The object `iBinder`, with what it inherits from `Binder`. -/
def iBinder (superOnTransact : Int → Parcel → Option Parcel → Persons →
    Except Fault (Transaction Persons)) : Stub Persons where
  addPerson := addPerson
  getPersonList := getPersonList
  superOnTransact := superOnTransact

end RemoteService

/-- From another process the service's binder is wrapped in a `Proxy`, and there every
sequence of calls gives the results of the same calls on the service itself and takes its
list through the same states, with each parcel read to its end. -/
theorem remote_run_eq_local_run (superOnTransact : Int → Parcel → Option Parcel → Persons →
      Except Fault (Transaction Persons)) (persons : Persons) (calls : List Call) :
    let iBinder := RemoteService.iBinder superOnTransact
    Stub.asInterface (some ⟨iBinder, false⟩) = some (.proxy ⟨iBinder, false⟩) ∧
      Proxy.run ⟨iBinder, false⟩ calls persons =
        .ok ((iBinder.toIPersonManager.run calls persons).map wholly) := by
  intro iBinder
  constructor
  · rfl
  · apply Proxy.run_eq

/-- A null, a person without a name, and the list of both calls. -/
theorem remote_run_eq_local_run_nameless :
    Proxy.run
        ⟨RemoteService.iBinder fun _ data reply persons => .ok ⟨false, data, reply, persons⟩, false⟩
        [.addPerson none, .addPerson (some ⟨none, 3⟩), .getPersonList] (some []) =
      .ok [⟨.unit, some [], [], []⟩, ⟨.unit, some [⟨none, 3⟩], [], []⟩,
        ⟨.personList (some [some ⟨none, 3⟩]), some [⟨none, 3⟩], [], []⟩] :=
  (remote_run_eq_local_run _ _ _).2

end StudyNotes.Binder
