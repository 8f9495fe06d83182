import Mathlib.Algebra.GroupWithZero.Nat
import Mathlib.Data.List.Basic
import Mathlib.Data.List.TakeWhile

/-!
# Cutting a string at a separator

* `find`, `rfind`, `substr` : `std::string::find` and `rfind` of a character and `std::string::substr`, with `none` for
  `npos`;
* `forPieces` : the loop that walks a text from separator to separator and hands every piece to `body`;
  `forPieces_eq_foldl` : when an empty piece changes nothing, it is a fold over `List.splitOn`;
* `forRest` : the loop that cuts piece after piece off a shrinking text; `forRest_eq_foldlM`;
* `stream` : the loop that writes strings with a separator in front of all but the first; `splitOn_stream` takes what
  it wrote apart again, `stream_splitOn` puts a text together from its pieces, `length_stream` is how long it gets.
-/

universe u v w

namespace Pieces

section Cutting

variable {α : Type u} {β : Type v} [DecidableEq α]

/-- The position of the first `c` at or after `pos`. -/
def find (text : List α) (c : α) (pos : Nat) : Option Nat := ((text.drop pos).findIdx? (· == c)).map (pos + ·)

def substr (text : List α) (pos n : Nat) : List α := (text.drop pos).take n

theorem find_eq_none {text : List α} {c : α} {pos : Nat} (h : find text c pos = none) : c ∉ text.drop pos := by
  rw [find, Option.map_eq_none_iff, List.findIdx?_eq_none_iff] at h
  intro hc
  simpa using h c hc

/-- What `find` found splits the text. -/
theorem find_eq_some {text : List α} {c : α} {pos i : Nat} (h : find text c pos = some i) :
    pos ≤ i ∧ i < text.length ∧ c ∉ substr text pos (i - pos) ∧
      text.drop pos = substr text pos (i - pos) ++ c :: text.drop (i + 1) := by
  rw [find, Option.map_eq_some_iff] at h
  obtain ⟨j, hj, rfl⟩ := h
  rw [List.findIdx?_eq_some_iff_getElem] at hj
  obtain ⟨hlt, hc, hbefore⟩ := hj
  have hc : (text.drop pos)[j] = c := by simpa using hc
  simp only [List.length_drop] at hlt
  refine ⟨by omega, by omega, ?_, ?_⟩
  · rw [substr, Nat.add_sub_cancel_left]
    intro hm
    obtain ⟨i, hi, hic⟩ := List.mem_take_iff_getElem.1 hm
    have := hbefore i (by omega)
    rw [hic] at this
    simp at this
  · rw [substr, Nat.add_sub_cancel_left, Nat.add_assoc, ← List.drop_drop]
    conv_lhs => rw [← List.take_append_drop j (text.drop pos)]
    rw [List.drop_eq_getElem_cons (i := j) (by simpa using hlt), hc]

/-- The position of the last `c`. -/
def rfind (text : List α) (c : α) : Option Nat := (text.reverse.findIdx? (· == c)).map (text.length - 1 - ·)

theorem rfind_eq_none {text : List α} {c : α} (h : rfind text c = none) : c ∉ text := by
  rw [rfind, Option.map_eq_none_iff, List.findIdx?_eq_none_iff] at h
  intro hc
  simpa using h c (List.mem_reverse.2 hc)

/-- What `rfind` found splits the text. -/
theorem rfind_eq_some {text : List α} {c : α} {i : Nat} (h : rfind text c = some i) :
    i < text.length ∧ text = text.take i ++ c :: text.drop (i + 1) ∧ c ∉ text.drop (i + 1) := by
  rw [rfind, Option.map_eq_some_iff] at h
  obtain ⟨j, hj, hi⟩ := h
  rw [List.findIdx?_eq_some_iff_getElem] at hj
  obtain ⟨hlt, hc, hafter⟩ := hj
  rw [List.length_reverse] at hlt
  have hlast : text.length - 1 - j < text.length := by omega
  have hci : text[text.length - 1 - j] = c := by
    rw [List.getElem_reverse] at hc
    simpa using hc
  have hji : j = text.length - 1 - i := by omega
  subst hi
  refine ⟨by omega, ?_, ?_⟩
  · conv_lhs => rw [← List.take_append_drop (text.length - 1 - j) text]
    rw [List.drop_eq_getElem_cons (by omega), hci]
  · intro hm
    obtain ⟨k, hk, hkc⟩ := List.mem_drop_iff_getElem.1 hm
    have hne := hafter (text.length - 1 - (text.length - 1 - j + 1 + k)) (by omega)
    rw [List.getElem_reverse] at hne
    have hidx : text.length - 1 - (text.length - 1 - (text.length - 1 - j + 1 + k)) = text.length - 1 - j + 1 + k := by
      omega
    simp only [hidx, hkc] at hne
    simp at hne

theorem rfind_append_cons (pre : List α) {c : α} {post : List α} (h : c ∉ post) :
    rfind (pre ++ c :: post) c = some pre.length := by
  cases hf : rfind (pre ++ c :: post) c with
  | none => exact absurd (List.mem_append_right pre List.mem_cons_self) (rfind_eq_none hf)
  | some i =>
    obtain ⟨hi, hsplit, hlast⟩ := rfind_eq_some hf
    congr 1
    -- each of the two positions is behind no other `c`
    rcases Nat.lt_trichotomy i pre.length with hlt | heq | hgt
    · refine absurd ?_ hlast
      rw [List.drop_append_of_le_length (by omega)]
      exact List.mem_append_right _ List.mem_cons_self
    · exact heq
    · have hi' : i - pre.length - 1 < post.length := by simp at hi; omega
      have hget : (pre ++ c :: post)[i]? = some c := by
        conv_lhs => rw [hsplit]
        rw [List.getElem?_append_right (List.length_take_le _ _), List.length_take, Nat.min_eq_left (by omega), Nat.sub_self]
        rfl
      rw [List.getElem?_append_right (by omega), List.getElem?_cons, if_neg (by omega)] at hget
      exact absurd (List.mem_of_getElem? hget) h

/-- `while (start_p < text.size())` : cut the piece up to the next separator, or to the end, and go on behind it. -/
def forPieces (sep : α) (text : List α) (body : β → List α → β) (startP : Nat) (acc : β) : β :=
  if h : startP < text.length then
    let endP := (find text sep startP).getD text.length
    have : text.length - (endP + 1) < text.length - startP := by
      have hle : startP ≤ endP := by
        cases hf : find text sep startP with
        | none => simp only [endP, hf, Option.getD_none]; omega
        | some i => simp only [endP, hf, Option.getD_some]; exact (find_eq_some hf).1
      omega
    forPieces sep text body (endP + 1) (body acc (substr text startP (endP - startP)))
  else acc
termination_by text.length - startP

theorem forPieces_eq_foldl {sep : α} {text : List α} {body : β → List α → β} (hbody : ∀ acc, body acc [] = acc)
    (startP : Nat) (acc : β) :
    forPieces sep text body startP acc = ((text.drop startP).splitOn sep).foldl body acc := by
  fun_induction forPieces sep text body startP acc with
  | case1 startP acc h endP hlt ih =>
    rw [ih]
    cases hf : find text sep startP with
    | none =>
      have hend : endP = text.length := by simp only [endP, hf, Option.getD_none]
      rw [hend, List.drop_eq_nil_of_le (by omega), List.splitOn_nil,
        List.splitOn_eq_singleton (find_eq_none hf), substr, List.take_of_length_le (by simp)]
      simp [hbody]
    | some i =>
      have hend : endP = i := by simp only [endP, hf, Option.getD_some]
      obtain ⟨-, -, hnot, hsplit⟩ := find_eq_some hf
      rw [hend, hsplit, List.splitOn_append_cons_self_of_not_mem hnot, List.foldl_cons]
  | case2 startP acc h =>
    rw [List.drop_eq_nil_of_le (by omega), List.splitOn_nil]
    simp [hbody]

/-- The loop runs its body at most once for each character that is left. -/
theorem forPieces_count_le (sep : α) (text : List α) (startP n : Nat) :
    forPieces sep text (fun n _ => n + 1) startP n ≤ n + (text.length - startP) := by
  fun_induction forPieces sep text (fun n _ => n + 1) startP n with
  | case1 startP n h endP hlt ih => omega
  | case2 startP n h => exact Nat.le_add_right _ _

/-- `while (! rest.empty())` : cut the piece up to the first separator off the rest and hand it to `body`. -/
def forRest {μ : Type v → Type w} [Monad μ] (sep : α) (rest : List α) (body : β → List α → μ β) (acc : β) : μ β :=
  if rest = [] then pure acc
  else
    match h : find rest sep 0 with
    | none => body acc rest
    | some i => do
      let acc ← body acc (substr rest 0 i)
      forRest sep (rest.drop (i + 1)) body acc
termination_by rest.length
decreasing_by
  have := (find_eq_some h).2.1
  rw [List.length_drop]
  omega

theorem forRest_eq_foldlM {μ : Type v → Type w} [Monad μ] [LawfulMonad μ] {sep : α} {body : β → List α → μ β}
    (hbody : ∀ acc, body acc [] = pure acc) (rest : List α) (acc : β) :
    forRest sep rest body acc = (rest.splitOn sep).foldlM body acc := by
  fun_induction forRest sep rest body acc with
  | case1 acc => rw [List.splitOn_nil, List.foldlM_cons, hbody, pure_bind, List.foldlM_nil]
  | case2 rest acc hne hfind =>
    have hnot : sep ∉ rest := find_eq_none hfind
    rw [List.splitOn_eq_singleton hnot, List.foldlM_cons]
    simp
  | case3 rest acc hne i hfind ih =>
    obtain ⟨-, -, hnot, hsplit⟩ := find_eq_some hfind
    rw [List.drop_zero, Nat.sub_zero] at hsplit
    rw [Nat.sub_zero] at hnot
    have hrest : rest.splitOn sep = substr rest 0 i :: (rest.drop (i + 1)).splitOn sep := by
      conv_lhs => rw [hsplit]
      exact List.splitOn_append_cons_self_of_not_mem hnot _
    rw [hrest, List.foldlM_cons]
    congr 1
    funext acc
    exact ih acc

theorem find_eq_none_iff {text : List α} {c : α} : find text c 0 = none ↔ c ∉ text := by
  constructor
  · exact find_eq_none
  · intro h
    rw [find, Option.map_eq_none_iff, List.findIdx?_eq_none_iff]
    intro x hx
    simpa using fun hxc : x = c => h (hxc ▸ (by simpa using hx))

theorem find_append_cons {k t : List α} {c : α} (h : c ∉ k) : find (k ++ c :: t) c 0 = some k.length := by
  rw [find, List.drop_zero, Option.map_eq_some_iff]
  refine ⟨k.length, ?_, by simp⟩
  rw [List.findIdx?_eq_some_iff_getElem]
  refine ⟨by simp, by simp, fun j hj => ?_⟩
  rw [List.getElem_append_left hj]
  simpa using fun hc : k[j] = c => h (hc ▸ List.getElem_mem hj)

/-- What is appended does not matter for what is found. -/
theorem find_append {text : List α} {c : α} {i : Nat} (h : find text c 0 = some i) (ext : List α) :
    find (text ++ ext) c 0 = some i := by
  obtain ⟨-, hi, hnot, hsplit⟩ := find_eq_some h
  rw [List.drop_zero] at hsplit
  have hlen : (substr text 0 (i - 0)).length = i := by
    rw [substr, List.length_take, List.drop_zero]
    omega
  rw [hsplit, List.append_assoc, List.cons_append, find_append_cons hnot, hlen]

/-- A piece holds no separator, and no character the text does not hold. -/
theorem mem_splitOn {sep : α} {text l : List α} (hl : l ∈ text.splitOn sep) : sep ∉ l ∧ ∀ c ∈ l, c ∈ text := by
  induction text generalizing l with
  | nil =>
    rw [List.splitOn_nil, List.mem_singleton] at hl
    simp [hl]
  | cons a text ih =>
    rw [List.splitOn_cons_eq_if_modifyHead] at hl
    split_ifs at hl with ha
    · rcases List.mem_cons.1 hl with rfl | hl
      · simp
      · exact ⟨(ih hl).1, fun c hc => List.mem_cons_of_mem _ ((ih hl).2 c hc)⟩
    · cases hs : text.splitOn sep with
      | nil => exact absurd hs (List.splitOn_ne_nil sep text)
      | cons m ms =>
        rw [hs, List.modifyHead_cons] at hl
        rw [hs] at ih
        rcases List.mem_cons.1 hl with rfl | hl
        · obtain ⟨h1, h2⟩ := ih List.mem_cons_self
          have ha : a ≠ sep := by simpa using ha
          refine ⟨fun h => ?_, fun c hc => ?_⟩
          · rcases List.mem_cons.1 h with h | h
            · exact ha h.symm
            · exact h1 h
          · rcases List.mem_cons.1 hc with rfl | hc
            · exact List.mem_cons_self
            · exact List.mem_cons_of_mem _ (h2 c hc)
        · obtain ⟨h1, h2⟩ := ih (List.mem_cons_of_mem _ hl)
          exact ⟨h1, fun c hc => List.mem_cons_of_mem _ (h2 c hc)⟩

omit [DecidableEq α] in
/-- The last separator splits a text in one way. -/
theorem append_cons_inj_last {c : α} {s s' t t' : List α} (ht : c ∉ t) (ht' : c ∉ t') (h : s ++ c :: t = s' ++ c :: t') :
    s = s' ∧ t = t' := by
  rcases List.append_eq_append_iff.1 h with ⟨a, rfl, hrest⟩ | ⟨a, rfl, hrest⟩
  · cases a with
    | nil => exact ⟨(List.append_nil s).symm, (List.cons.inj hrest).2⟩
    | cons b a =>
      rw [(List.cons.inj hrest).2] at ht
      exact absurd (List.mem_append_right a List.mem_cons_self) ht
  · cases a with
    | nil => exact ⟨List.append_nil s', (List.cons.inj hrest).2.symm⟩
    | cons b a =>
      rw [(List.cons.inj hrest).2] at ht'
      exact absurd (List.mem_append_right a List.mem_cons_self) ht'

end Cutting

/-! ## Writing with separators -/

section Stream

variable {α : Type u}

/-- The loop that writes the strings `ls`, each but the first behind a separator. -/
def stream (sep : α) : (first : Bool) → List (List α) → List α
  | _, [] => []
  | first, l :: ls => (if first then [] else [sep]) ++ l ++ stream sep false ls

/-- What was written comes apart at the separators. -/
theorem splitOn_stream [DecidableEq α] {sep : α} {ls : List (List α)} (h : ∀ l ∈ ls, sep ∉ l) (hne : ls ≠ []) :
    (stream sep true ls).splitOn sep = ls := by
  induction ls with
  | nil => exact absurd rfl hne
  | cons l ls ih =>
    have hl := h l List.mem_cons_self
    cases ls with
    | nil => simpa [stream] using List.splitOn_eq_singleton hl
    | cons m ls =>
      have := ih (fun x hx => h x (List.mem_cons_of_mem _ hx)) (by simp)
      simp only [stream, if_true, if_false, List.nil_append, List.cons_append, Bool.false_eq_true] at this ⊢
      rw [List.splitOn_append_cons_self_of_not_mem hl, this]

/-- Each string takes a place for its separator, but the first. -/
theorem length_stream (sep : α) (first : Bool) (ls : List (List α)) :
    (stream sep first ls).length = (ls.map (·.length + 1)).sum - if first then 1 else 0 := by
  induction ls generalizing first with
  | nil => simp [stream]
  | cons l ls ih =>
    rw [stream, List.length_append, List.length_append, ih false, List.map_cons, List.sum_cons]
    cases first with
    | false =>
      simp
      omega
    | true => simp

/-- Cutting a text and writing the pieces gives the text back. -/
theorem stream_splitOn [DecidableEq α] (sep : α) (text : List α) : stream sep true (text.splitOn sep) = text := by
  induction text with
  | nil => simp [stream]
  | cons c text ih =>
    obtain ⟨m, ms, hms⟩ := List.exists_cons_of_ne_nil (List.splitOn_ne_nil sep text)
    rw [hms] at ih
    rw [List.splitOn_cons_eq_if_modifyHead, hms]
    split_ifs with hc
    · obtain rfl : c = sep := by simpa using hc
      show [] ++ [] ++ stream c false (m :: ms) = _
      rw [stream, List.append_nil, List.nil_append]
      exact congrArg (c :: ·) ih
    · exact congrArg (c :: ·) ih

theorem notMem_stream {c sep : α} (hsep : c ≠ sep) {ls : List (List α)} (h : ∀ l ∈ ls, c ∉ l) (first : Bool) :
    c ∉ stream sep first ls := by
  induction ls generalizing first with
  | nil => simp [stream]
  | cons l ls ih =>
    have hl := h l List.mem_cons_self
    have hls := ih (fun x hx => h x (List.mem_cons_of_mem _ hx)) false
    cases first <;> simp [stream, hsep, hl, hls]

end Stream

end Pieces
