import Mathlib.Data.List.Basic

/-!
# Queues that remember where the writes end

A queue is the list of its chunks, its content is their concatenation. What is taken from the front may end inside a chunk.

* `List.dropFront n cs` : the chunks that are left when `n` elements are taken; `flatten_dropFront`;
* `List.take_flatten_eq_head` : the first `n` elements are the first chunk exactly when it is alone or has `n` elements;
  `dropFront_head` : then the other chunks are left.
-/

universe u

namespace List

variable {α : Type u}

def dropFront : Nat → List (List α) → List (List α)
  | _, [] => []
  | n, c :: cs => if c.length ≤ n then dropFront (n - c.length) cs else c.drop n :: cs

theorem flatten_dropFront (n : Nat) (cs : List (List α)) : (dropFront n cs).flatten = cs.flatten.drop n := by
  induction cs generalizing n with
  | nil => rw [dropFront, flatten_nil, drop_nil]
  | cons c cs ih =>
    rw [dropFront, flatten_cons, drop_append]
    split_ifs with h
    · rw [ih, drop_eq_nil_of_le h, nil_append]
    · rw [flatten_cons, Nat.sub_eq_zero_of_le (by omega), drop_zero]

theorem dropFront_zero {cs : List (List α)} (h : [] ∉ cs) : dropFront 0 cs = cs := by
  cases cs with
  | nil => rfl
  | cons c cs =>
    have hpos : 0 < c.length := length_pos_of_ne_nil fun hc => h (hc ▸ mem_cons_self)
    rw [dropFront, if_neg (by omega), drop_zero]

theorem flatten_eq_nil_of {cs : List (List α)} (h : [] ∉ cs) : cs.flatten = [] ↔ cs = [] := by
  constructor
  · intro hnil
    cases cs with
    | nil => rfl
    | cons c cs => exact absurd (flatten_eq_nil_iff.1 hnil c mem_cons_self ▸ mem_cons_self) h
  · rintro rfl
    rfl

variable {c : List α} {cs : List (List α)} {n : Nat}

theorem take_flatten_eq_head (h : [] ∉ cs) (hn : c.length ≤ n) :
    (c :: cs).flatten.take n = c ↔ cs = [] ∨ c.length = n := by
  rw [flatten_cons, take_append, take_of_length_le hn, append_right_eq_self, take_eq_nil_iff, flatten_eq_nil_of h,
    or_comm]
  exact or_congr_right ⟨fun hle => by omega, fun heq => by omega⟩

theorem dropFront_head (h : [] ∉ cs) (hn : c.length ≤ n) (halone : cs = [] ∨ c.length = n) :
    dropFront n (c :: cs) = cs := by
  rw [dropFront, if_pos hn]
  obtain rfl | rfl := halone
  · rfl
  · rw [Nat.sub_self, dropFront_zero h]

end List
