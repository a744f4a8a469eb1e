/-
The abstract view of a sparse table: a finite map from keys, up to key
equality, to items, and the key found last.
-/
import Gobo.SparseInvariant
import Mathlib.Data.Finmap

namespace Gobo

variable {G K : Type} {gen : SparseGenerics G K}

/-- The calls a client can make, with their arguments. -/
inductive Command (G K : Type) where
  | has (k : Key K)
  | item (k : Key K)
  | search (k : Key K)
  | put (v : G) (k : Key K)
  | putNew (v : G) (k : Key K)
  | putLast (v : G) (k : Key K)
  | putLastNew (v : G) (k : Key K)
  | force (v : G) (k : Key K)
  | forceNew (v : G) (k : Key K)
  | forceLast (v : G) (k : Key K)
  | forceLastNew (v : G) (k : Key K)
  | replace (v : G) (k : Key K)
  | remove (k : Key K)
  | removeFoundItem
  | wipeOut
  | resize (n : Int)
  | compress

/-- The item and the key that a command stores. -/
def Command.stores : Command G K → Option (G × Key K)
  | .put v k => some (v, k)
  | .putNew v k => some (v, k)
  | .putLast v k => some (v, k)
  | .putLastNew v k => some (v, k)
  | .force v k => some (v, k)
  | .forceNew v k => some (v, k)
  | .forceLast v k => some (v, k)
  | .forceLastNew v k => some (v, k)
  | .replace v k => some (v, k)
  | _ => none

/-- May the command compress the container? -/
def Command.mayCompress : Command G K → Bool
  | .putLast _ _ => true
  | .putLastNew _ _ => true
  | .compress => true
  | _ => false

namespace KeyEquality

variable (E : KeyEquality gen)

def setoid : Setoid (Key K) where
  r k l := E.same k l = true
  iseqv := ⟨E.refl, fun h => E.symm _ _ h, fun h => E.trans _ _ _ h⟩

/-- Keys up to equality. -/
def Class : Type := Quotient E.setoid

instance : DecidableEq E.Class :=
  @Quotient.decidableEq _ E.setoid fun k l =>
    inferInstanceAs (Decidable (E.same k l = true))

def classOf (k : Key K) : E.Class := Quotient.mk E.setoid k

theorem classOf_eq_iff (k l : Key K) :
    E.classOf k = E.classOf l ↔ E.same k l = true :=
  Quotient.eq (r := E.setoid)

end KeyEquality

structure FiniteMap (G : Type) (E : KeyEquality gen) where
  map : Finmap (fun _ : E.Class => G)
  found : Option E.Class

namespace FiniteMap

variable {E : KeyEquality gen}

def empty : FiniteMap G E := ⟨∅, none⟩

def insert (m : FiniteMap G E) (k : Key K) (v : G) : FiniteMap G E :=
  ⟨m.map.insert (E.classOf k) v, none⟩

/-- The meaning of each command.  `compress` and `resize` are about the
representation only. -/
def next (m : FiniteMap G E) : Command G K → FiniteMap G E
  | .has _ => m
  | .item _ => m
  | .search k =>
      { m with found :=
        if E.classOf k ∈ m.map then some (E.classOf k) else none }
  | .put v k => m.insert k v
  | .putNew v k => m.insert k v
  | .putLast v k => m.insert k v
  | .putLastNew v k => m.insert k v
  | .force v k => m.insert k v
  | .forceNew v k => m.insert k v
  | .forceLast v k => m.insert k v
  | .forceLastNew v k => m.insert k v
  | .replace v k => m.insert k v
  | .remove k => ⟨m.map.erase (E.classOf k), none⟩
  | .removeFoundItem => ⟨m.found.elim m.map fun c => m.map.erase c, none⟩
  | .wipeOut => empty
  | .resize _ => { m with found := none }
  | .compress => m

theorem next_of_stores (m : FiniteMap G E) {c : Command G K} {v : G} {k : Key K}
    (hc : c.stores = some (v, k)) : m.next c = m.insert k v := by
  cases c <;> simp_all [Command.stores, next]

end FiniteMap

end Gobo
