import Mathlib.Data.Finset.Defs
import Mathlib.Data.List.Nodup

/-!
# Sets that remember how they were filled

The elements of a hash set come out in an order that depends on how the set was
filled. A set is therefore kept as the list of its elements, latest first and
without repetition. Putting in an element that is there changes nothing.
-/

namespace Foundation.KeySets

variable {κ : Type*}

/-- The elements of a set, latest first. -/
structure KeySet (κ : Type*) where
  toList : List κ
  nodup : toList.Nodup
  deriving DecidableEq

namespace KeySet

instance : Membership κ (KeySet κ) := ⟨fun s a => a ∈ s.toList⟩

instance : EmptyCollection (KeySet κ) := ⟨⟨[], List.nodup_nil⟩⟩

@[simp] theorem mem_toList {s : KeySet κ} {a : κ} : a ∈ s.toList ↔ a ∈ s := Iff.rfl

@[simp] theorem notMem_empty (a : κ) : a ∉ (∅ : KeySet κ) := List.not_mem_nil

/-- The set apart from its history. -/
def toFinset (s : KeySet κ) : Finset κ := ⟨s.toList, Multiset.coe_nodup.mpr s.nodup⟩

@[simp] theorem mem_toFinset {s : KeySet κ} {a : κ} : a ∈ s.toFinset ↔ a ∈ s := Iff.rfl

variable [DecidableEq κ]

instance : Insert κ (KeySet κ) := ⟨fun a s => ⟨s.toList.insert a, s.nodup.insert⟩⟩

instance (a : κ) (s : KeySet κ) : Decidable (a ∈ s) := inferInstanceAs (Decidable (a ∈ s.toList))

@[simp] theorem mem_insert {s : KeySet κ} {a b : κ} : b ∈ insert a s ↔ b = a ∨ b ∈ s :=
  List.mem_insert_iff

/-- Put in every element of a list, in order. -/
def insertAll (l : List κ) (s : KeySet κ) : KeySet κ := l.foldl (fun s a => insert a s) s

@[simp] theorem mem_insertAll {l : List κ} {s : KeySet κ} {b : κ} :
    b ∈ insertAll l s ↔ b ∈ s ∨ b ∈ l := by
  induction l generalizing s with
  | nil => simp [insertAll]
  | cons a l ih =>
      rw [insertAll, List.foldl_cons, ← insertAll, ih, mem_insert, List.mem_cons]
      tauto

end KeySet

end Foundation.KeySets
