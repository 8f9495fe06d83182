import Mathlib.Data.Set.Card
import Mathlib.Data.List.Basic

/-!
# Descriptor tables

* `FdTable ρ` : which numbers are open, and what each of them refers to (`get`);
* `lowest` : the lowest free number, `alloc` opens it; `close`, `dup2`;
* `get_put` : one entry after one write, from which `get_alloc`, `get_close` and `get_dup2` follow;
* `openFds` : the open numbers; `openFds_alloc`, `openFds_close`, `openFds_dup2`;
* `ncard_alloc` : how many they are.
-/

universe u

structure FdTable (ρ : Type u) where
  slots : List (Option ρ)
  deriving Repr, DecidableEq

namespace FdTable

variable {ρ : Type u}

/-- What `fd` refers to, when it is open. -/
def get (t : FdTable ρ) (fd : Nat) : Option ρ := (t.slots[fd]?).join

/-- The lowest number that is not open. -/
def lowest (t : FdTable ρ) : Nat := t.slots.findIdx Option.isNone

def put (t : FdTable ρ) (fd : Nat) (r : Option ρ) : FdTable ρ :=
  ⟨(t.slots ++ List.replicate (fd + 1 - t.slots.length) none).set fd r⟩

/-- `open`, `pipe`: the lowest free number is given out. -/
def alloc (t : FdTable ρ) (r : ρ) : FdTable ρ := t.put t.lowest (some r)

def close (t : FdTable ρ) (fd : Nat) : FdTable ρ := t.put fd none

/-- `dup2 old new`: nothing happens when `old` is not open. -/
def dup2 (t : FdTable ρ) (old new : Nat) : FdTable ρ :=
  match t.get old with
  | some r => t.put new (some r)
  | none => t

def openFds (t : FdTable ρ) : Set Nat := {fd | t.get fd ≠ none}

theorem get_replicate_append (t : FdTable ρ) (n fd : Nat) :
    ((t.slots ++ List.replicate n none)[fd]?).join = t.get fd := by
  rw [List.getElem?_append, List.getElem?_replicate]
  unfold get
  split_ifs with h h'
  · rfl
  · rw [List.getElem?_eq_none (by omega)]
    rfl
  · rw [List.getElem?_eq_none (by omega)]

@[simp] theorem get_put (t : FdTable ρ) (fd : Nat) (r : Option ρ) (n : Nat) :
    (t.put fd r).get n = if n = fd then r else t.get n := by
  have hlen : fd < (t.slots ++ List.replicate (fd + 1 - t.slots.length) none).length := by simp; omega
  unfold put
  rw [get, List.getElem?_set]
  split_ifs with h h' h' <;> first | rfl | omega | skip
  exact get_replicate_append t _ n

theorem get_lowest (t : FdTable ρ) : t.get t.lowest = none := by
  unfold get lowest
  rcases Nat.lt_or_ge (t.slots.findIdx Option.isNone) t.slots.length with h | h
  · have := List.findIdx_getElem (w := h)
    rw [List.getElem?_eq_getElem h]
    simpa using this
  · rw [List.getElem?_eq_none h]
    rfl

/-- Every number below `lowest` is open. -/
theorem lowest_le (t : FdTable ρ) {fd : Nat} (h : t.get fd = none) : t.lowest ≤ fd := by
  by_contra hlt
  have hlt : fd < t.slots.findIdx Option.isNone := by unfold lowest at hlt; omega
  have hlen : fd < t.slots.length := lt_of_lt_of_le hlt List.findIdx_le_length
  have hopen := List.not_of_lt_findIdx hlt
  unfold get at h
  rw [List.getElem?_eq_getElem hlen] at h
  simp only [Option.join_some] at h
  simp [h] at hopen

theorem get_alloc (t : FdTable ρ) (r : ρ) (n : Nat) :
    (t.alloc r).get n = if n = t.lowest then some r else t.get n := get_put _ _ _ _

theorem get_close (t : FdTable ρ) (fd n : Nat) : (t.close fd).get n = if n = fd then none else t.get n :=
  get_put _ _ _ _

theorem get_dup2 (t : FdTable ρ) (old new n : Nat) :
    (t.dup2 old new).get n = if n = new ∧ t.get old ≠ none then t.get old else t.get n := by
  unfold dup2
  split
  · rename_i r h
    simp [h]
  · rename_i h
    simp [h]

theorem mem_openFds {t : FdTable ρ} {fd : Nat} : fd ∈ t.openFds ↔ t.get fd ≠ none := Iff.rfl

theorem lowest_notMem (t : FdTable ρ) : t.lowest ∉ t.openFds := fun h => h t.get_lowest

@[simp] theorem openFds_alloc (t : FdTable ρ) (r : ρ) : (t.alloc r).openFds = insert t.lowest t.openFds := by
  ext n
  rw [mem_openFds, get_alloc, Set.mem_insert_iff, mem_openFds]
  split_ifs with h <;> simp [h]

@[simp] theorem openFds_close (t : FdTable ρ) (fd : Nat) : (t.close fd).openFds = t.openFds \ {fd} := by
  ext n
  rw [mem_openFds, get_close, Set.mem_sdiff, mem_openFds, Set.mem_singleton_iff]
  split_ifs with h <;> simp [h]

/-- `dup2` onto an open number changes what it refers to, but opens nothing. -/
theorem openFds_dup2 (t : FdTable ρ) (old : Nat) {new : Nat} (h : new ∈ t.openFds) :
    (t.dup2 old new).openFds = t.openFds := by
  ext n
  rw [mem_openFds, get_dup2, mem_openFds]
  split_ifs with hn
  · obtain ⟨rfl, hold⟩ := hn
    exact iff_of_true hold h
  · exact Iff.rfl

theorem finite_openFds (t : FdTable ρ) : t.openFds.Finite := by
  apply (Set.finite_lt_nat t.slots.length).subset
  intro fd hfd
  by_contra hle
  apply hfd
  unfold get
  rw [List.getElem?_eq_none (by simpa using hle)]
  rfl

theorem ncard_alloc (t : FdTable ρ) (r : ρ) : (t.alloc r).openFds.ncard = t.openFds.ncard + 1 := by
  rw [openFds_alloc]
  exact Set.ncard_insert_of_notMem t.lowest_notMem t.finite_openFds

end FdTable
