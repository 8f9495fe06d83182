import OksSystem.File.Texts
import OksSystem.Process.Join

/-!
# The texts of processes and exit values

* `exitText`, `exitPretty` : the members; `none` is a read outside of a table of names;
* `exitText_ne_none`, `exitPretty_inj`, `toString_inj` : what the tables hold, and what the texts tell;
* `texts_exact` : **no name is read outside of the tables, and the texts of two exit values or two processes differ**.
-/

namespace OksSystem
open ByteBuffer Pieces File

namespace Process

/-! ## The names of exit values -/

/-- EX__BASE. -/
def exBase : Int := 64

/-- EX__MAX. -/
def exMax : Int := 78

def testBaseValue : Int := 182

def testMaxValue : Int := 186

def sysExitsNames : List Str :=
  [text "command line usage error", text "data format error", text "cannot open input", text "addressee unknown",
    text "host name unknown", text "service unavailable", text "internal software error", text "okssystem error",
    text "critical OS file missing", text "can't create (user) output file", text "input/output error",
    text "temp failure; user is invited to retry", text "remote error in protocol", text "permission denied ",
    text "configuration error"]

def testExitsNames : List Str :=
  [text "undefined test", text "test failed", text "test unresolved", text "test untested", text "unsupported test"]

def okExitName : Str := text "ok"

/-- `names[i]`, when there is such an entry. -/
def nameAt (names : List Str) (i : Int) : Option Str := if i < 0 then none else names[i.toNat]?

/-- `some none` is the null pointer. -/
def exitText (returnValue : Int) : Option (Option Str) :=
  if 0 = returnValue then some (some okExitName)
  else if returnValue ≥ exBase ∧ returnValue ≤ exMax then (nameAt sysExitsNames (returnValue - exBase)).map some
  else if returnValue ≥ testBaseValue ∧ returnValue ≤ testMaxValue then
    (nameAt testExitsNames (returnValue - testBaseValue)).map some
  else some none

def exitPretty (returnValue : Int) : Option Str :=
  (exitText returnValue).map fun
    | some name => name ++ openParen :: text (Int.repr returnValue) ++ [closeParen]
    | none => text (Int.repr returnValue)

/-! ## Exit values -/

theorem nameAt_ne_none (names : List Str) {i : Int} (h : 0 ≤ i) (hi : i < names.length) : nameAt names i ≠ none := by
  unfold nameAt
  rw [if_neg (by omega), List.getElem?_eq_getElem (by omega)]
  exact Option.some_ne_none _

/-- The tables have a name for each value of their ranges. -/
theorem exitText_ne_none (r : Int) : exitText r ≠ none := by
  unfold exitText
  split_ifs with hok hsys htest
  · simp
  · have hmax : exMax - exBase < sysExitsNames.length := by decide
    have hname := nameAt_ne_none sysExitsNames (i := r - exBase) (by omega) (by omega)
    simpa using hname
  · have hmax : testMaxValue - testBaseValue < testExitsNames.length := by decide
    have hname := nameAt_ne_none testExitsNames (i := r - testBaseValue) (by omega) (by omega)
    simpa using hname
  · simp

theorem exitPretty_ne_none (r : Int) : exitPretty r ≠ none := by
  unfold exitPretty
  simpa using exitText_ne_none r

theorem exitPretty_inj {r r' : Int} (h : exitPretty r = exitPretty r') : r = r' := by
  obtain ⟨n, hn⟩ := Option.ne_none_iff_exists'.1 (exitText_ne_none r)
  obtain ⟨n', hn'⟩ := Option.ne_none_iff_exists'.1 (exitText_ne_none r')
  unfold exitPretty at h
  rw [hn, hn', Option.map_some, Option.map_some, Option.some_inj] at h
  -- only a text with a name ends with a parenthesis
  have hlast : ∀ (m : Str) (x y : Int), m ++ openParen :: text (Int.repr x) ++ [closeParen] ≠ text (Int.repr y) :=
    fun m x y heq => notMem_repr y (b := closeParen) (by decide)
      (heq ▸ List.mem_append_right _ (List.mem_singleton_self closeParen))
  cases n with
  | none =>
    cases n' with
    | none => exact repr_inj h
    | some m => exact absurd h.symm (hlast m r' r)
  | some m =>
    cases n' with
    | none => exact absurd h (hlast m r r')
    | some m' => exact (repr_cancel (by decide) (List.append_cancel_right h)).2

/-! ## Processes -/

/-- The name and the space after it, if there is one. -/
def label (name : Str) : Str := if name.isEmpty then [] else name ++ text " "

theorem toString_eq (p : Process) :
    p.toString = label p.processName ++ text "pid:" ++ space :: text (Int.repr p.processId) := by
  have hpid : text "pid: " = text "pid:" ++ [space] := by decide
  unfold toString label
  rw [hpid, List.append_assoc, List.append_assoc, List.append_assoc]
  rfl

theorem label_injective {name name' : Str} (h : label name = label name') : name = name' := by
  unfold label at h
  cases name with
  | nil =>
    cases name' with
    | nil => rfl
    | cons c s => exact absurd h.symm (by simp)
  | cons b t =>
    cases name' with
    | nil => exact absurd h (by simp)
    | cons c s => exact List.append_cancel_right h

theorem toString_inj {p q : Process} (h : p.toString = q.toString) : p = q := by
  rw [toString_eq, toString_eq] at h
  obtain ⟨hlabel, hid⟩ := repr_cancel (by decide) h
  have hname := label_injective (List.append_cancel_right hlabel)
  obtain ⟨id, name⟩ := p
  obtain ⟨id', name'⟩ := q
  exact congrArg₂ Process.mk hid hname

/-- **`exit_text` reads no name outside of its tables; `exit_pretty` writes two exit values differently, and `to_string` two
processes that differ in their name or their id.** -/
theorem texts_exact : (∀ r, exitPretty r ≠ none) ∧ (∀ r r', exitPretty r = exitPretty r' ↔ r = r') ∧
    ∀ p q : Process, p.toString = q.toString ↔ p = q :=
  ⟨exitPretty_ne_none, fun _ _ => ⟨exitPretty_inj, fun h => h ▸ rfl⟩, fun _ _ => ⟨toString_inj, fun h => h ▸ rfl⟩⟩

end Process

end OksSystem
