import Courseware.Fault
import Courseware.Table

/-!
# Named locks

A registry holds each named lock at most once, whoever asks: a lock is not given again to its own
holder. A guard stands for one held lock, and a keyring keeps guards of several registries under
keys of its own.
-/

namespace Courseware

/-- The names of the locks that are held. -/
structure Locks where
  held : List String
  deriving DecidableEq

namespace Locks

def empty : Locks := ⟨[]⟩

def isLocked (l : Locks) (name : String) : Bool := l.held.contains name

/-- Takes a lock, unless it is held: then waiting for it ends in a fault. -/
def acquire (l : Locks) (name : String) : Except StoreFault Locks :=
  if l.isLocked name then .error (.lockTimeout name) else .ok ⟨name :: l.held⟩

/-- Gives a lock back. -/
def release (l : Locks) (name : String) : Locks := ⟨l.held.erase name⟩

end Locks

/-- A held lock: its registry and its name. -/
structure Guard where
  registry : Nat
  name : String
  deriving DecidableEq

/-- Registries of locks, and the guards held on them under keys. -/
structure Keyring where
  registries : List Locks
  guards : List (String × Guard)

namespace Keyring

def ofRegistries (n : Nat) : Keyring := ⟨List.replicate n .empty, []⟩

def isLocked (k : Keyring) (registry : Nat) (name : String) : Bool :=
  (k.registries[registry]?.getD .empty).isLocked name

/-- Drops the guard under a key, giving its lock back; tells whether there was one. -/
def release (k : Keyring) (key : String) : Bool × Keyring :=
  match k.guards.lookup key with
  | none => (false, k)
  | some guard =>
    (true,
      { registries := k.registries.modify guard.registry fun l => l.release guard.name
        guards := k.guards.filter fun g => g.1 != key })

/-- Takes a lock and keeps its guard under a key; only then is the guard dropped that was kept
there before. -/
def acquire (k : Keyring) (key : String) (registry : Nat) (name : String) :
    Except StoreFault Keyring := do
  let locks ← (k.registries[registry]?.getD .empty).acquire name
  let k := (Keyring.release { k with registries := k.registries.set registry locks } key).2
  return { k with guards := (key, ⟨registry, name⟩) :: k.guards }

end Keyring

end Courseware
