import Mooring.Store.File

/-!
# Handles on a document file

A handle reads its file when it is first used and answers from memory after that, until it is told
to reload.  Putting an anchor changes the document in memory and writes all of it to the file.  So a
handle does not see what others write to the file in the meantime, and overwrites it.
-/

namespace Mooring.Store

/-- A handle: the document it has read, if it has. -/
structure Handle where
  document : Option Document := none

/-- What a handle can be asked. -/
inductive Request
  | get (id : String)
  | list
  | put (anchor : Anchor)
  | reload

/-- What a handle answers. -/
inductive Reply
  | anchor (found : Option Anchor)
  | anchors (all : List Anchor)
  | done

/-- The document of a handle: what it has read, else what the file holds now. -/
def Handle.load (stamp : String) (entry : Entry) (handle : Handle) : Except LoadError Document :=
  match handle.document with
  | some document => .ok document
  | none => Store.load stamp entry

/-- What is under the path and what the handle has read. -/
abbrev Sight := Entry × Handle

/-- Reads the document, unless it was read before, and goes on with it.  A failed reading changes
nothing. -/
def withDocument (stamp : String) (sight : Sight) (go : Document → Reply × Sight) :
    Except LoadError Reply × Sight :=
  match sight.2.load stamp sight.1 with
  | .ok document => ((.ok (go document).1), (go document).2)
  | .error error => (.error error, sight)

/-- A request to a handle: its answer, and what is then under the path and in memory. -/
def ask (stamp : String) (request : Request) (sight : Sight) : Except LoadError Reply × Sight :=
  match request with
  | .get id =>
    withDocument stamp sight fun document =>
      (.anchor (document.get? id), (sight.1, ⟨some document⟩))
  | .list =>
    withDocument stamp sight fun document =>
      (.anchors document.anchors, (sight.1, ⟨some document⟩))
  | .put anchor =>
    withDocument stamp sight fun document =>
      (.done, (.file (fileOf (document.put anchor)), ⟨some (document.put anchor)⟩))
  | .reload => (.ok .done, (sight.1, {}))

/-- Handles that share a path, told apart by numbers. -/
structure Shared where
  entry : Entry := .nothing
  handles : Nat → Handle := fun _ => {}

/-- A request to one of the handles. -/
def Shared.ask (stamp : String) (number : Nat) (request : Request) (shared : Shared) :
    Except LoadError Reply × Shared :=
  let (reply, entry, handle) := Store.ask stamp request (shared.entry, shared.handles number)
  (reply, { entry, handles := fun n => if n = number then handle else shared.handles n })

/-- Requests to handles one after the other, with all the answers. -/
def Shared.run (stamp : String) :
    List (Nat × Request) → Shared → List (Except LoadError Reply) × Shared
  | [], shared => ([], shared)
  | (number, request) :: rest, shared =>
    let (reply, shared) := shared.ask stamp number request
    let (replies, shared) := shared.run stamp rest
    (reply :: replies, shared)

end Mooring.Store
