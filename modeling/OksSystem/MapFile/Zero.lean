import OksSystem.Lib.Narrow
import OksSystem.MapFile.Basic

/-!
# Zeroed files

* `ZeroSystem` : what the system calls of `zero` answer, `Zeroing` : the file and the descriptor it is written through;
* `opened`, `zeroLoop`, `zero` : the file as `open` leaves it, a write for each page, and the member;
* `run_zeroLoop` : the writes put zeros over the beginning of what was there;
* `content_of_zero` : what the file is when `zero` returns;
* `zero_extent_iff` : **the file is the mapped extent of zeros iff what was there before does not show**.
-/

namespace OksSystem
open ByteBuffer EStateM Narrow

def oTrunc : Nat := 0o1000

/-- ENOENT. -/
def eNoent : Errno := 2

/-- EFAULT. -/
def eFault : Errno := 14

namespace MapFile

/-- A `write` takes a part of the page, which may be all of it. -/
structure ZeroSystem (pageSize : Nat) where
  «open» : Option Errno
  /-- The buffer is null. -/
  callocFails : Bool
  write : (i : Nat) → Except Errno Nat
  write_le : ∀ i count, write i = .ok count → count ≤ pageSize
  close : CloseAnswer

/-- The file, if there is one, with the position of the descriptor. -/
structure Zeroing where
  content : Option Str
  position : Nat
  holder : Descriptor.Holder Descriptor.Opener

abbrev ZeroM (α : Type) := EStateM Issue Zeroing α

variable {α : Type} {pageSize : Nat}

/-- What `::open` makes of a file. -/
def opened (flags : Nat) : Option Str → Option Str
  | none => if flags &&& oCreat = 0 then none else some []
  | some content => some (if flags &&& oTrunc = 0 then content else [])

/-- A member of the descriptor on the stack. -/
def onFd (x : Descriptor.Member Descriptor.Opener α) : ZeroM α := zoom Zeroing.holder (fun s h => { s with holder := h }) x

/-- `Descriptor fd(this,flags,m_map_permission)`. -/
def openZeroed (f : MapFile) (flags : Nat) (answer : Option Errno) : ZeroM Unit := do
  let s ← get
  let content := opened flags s.content
  match Descriptor.construct f.fullName .process s.holder.fds (if content = none then some eNoent else answer) with
  | .error i => throw i
  | .ok (self, fds) => set { s with content, position := 0, holder := { s.holder with self, fds } }

/-- `fd.write(buffer,page_size)` : the bytes that are taken go to the position. -/
def writePage (sys : ZeroSystem pageSize) (buffer : Option Str) (i : Nat) : ZeroM Unit := do
  let count ← onFd <| Descriptor.write (buffer.getD []) pageSize fun _ =>
    if buffer = none then .error eFault else sys.write i
  modify fun s => { s with
    content := s.content.map fun d => overwrite d s.position ((buffer.getD []).take count)
    position := s.position + count }

/-- The loop, with the number of pages still to write. -/
def zeroLoop (sys : ZeroSystem pageSize) (buffer : Option Str) : (pages i : Nat) → ZeroM Unit
  | 0, _ => pure ()
  | pages + 1, i => do
    writePage sys buffer i
    zeroLoop sys buffer pages (i + 1)

/-- `page_num` is an `int`, and the loop does not run when it is negative. -/
def pageNum (f : MapFile) (pageSize : Nat) : Int := toInt ((f.mapSize + f.mapOffset) % 18446744073709551616 / pageSize)

def zero (f : MapFile) (sys : ZeroSystem pageSize) : ZeroM Unit := do
  unless f.mapWrite do throw .assertion
  openZeroed f (Descriptor.flags false true) sys.open
  cleanup (fun _ => true) (fun s => ((onFd (Descriptor.destroy sys.close)).run s).state) do
    let buffer := if sys.callocFails then none else some (List.replicate pageSize 0)
    zeroLoop sys buffer (f.pageNum pageSize).toNat 0
    onFd (Descriptor.close sys.close)

/-! ## What the writes leave -/

/-- The bytes that the first writes take. -/
def ZeroSystem.written (sys : ZeroSystem pageSize) : Nat → Nat
  | 0 => 0
  | i + 1 => sys.written i + match sys.write i with
    | .ok count => count
    | .error _ => 0

/-- `prev` with zeros over its first bytes. -/
def zeroedOver (prev : Str) (n : Nat) : Str := List.replicate n 0 ++ prev.drop n

theorem overwrite_zeroedOver (prev : Str) (n k : Nat) :
    overwrite (zeroedOver prev n) n (List.replicate k 0) = zeroedOver prev (n + k) := by
  unfold overwrite zeroedOver
  rw [List.take_append_of_le_length (by rw [List.length_replicate]), List.take_of_length_le (by rw [List.length_replicate]),
    List.length_replicate, List.drop_append, List.drop_of_length_le (by rw [List.length_replicate]; omega),
    List.length_replicate, Nat.add_sub_cancel_left, List.drop_drop, List.nil_append, ← List.replicate_append_replicate]

theorem length_zeroedOver (prev : Str) (n : Nat) : (zeroedOver prev n).length = max prev.length n := by
  unfold zeroedOver
  rw [List.length_append, List.length_replicate, List.length_drop]
  omega

theorem zeroedOver_eq_replicate_iff (prev : Str) (n k : Nat) :
    zeroedOver prev n = List.replicate k 0 ↔ max prev.length n = k ∧ ∀ b ∈ prev.drop n, b = 0 := by
  rw [List.eq_replicate_iff, length_zeroedOver]
  unfold zeroedOver
  simp only [List.forall_mem_append, List.mem_replicate]
  tauto

variable {f : MapFile} {sys : ZeroSystem pageSize} {s s' : Zeroing} {prev : Str} {buffer : Option Str} {i n : Nat}

theorem run_write_ok {count : Nat} {bytes : Str} {answer : Except Errno Nat} (h : answer = .ok count) :
    (onFd (Descriptor.write bytes n fun _ => answer)).run s = .ok count s := by
  have hx : (Descriptor.write bytes n fun _ => answer).run s.holder = .ok count s.holder := by
    rw [Descriptor.run_write, h]
  exact run_zoom_ok hx

theorem run_write_error {e : Errno} {bytes : Str} {answer : Except Errno Nat} (h : answer = .error e) :
    (onFd (Descriptor.write bytes n fun _ => answer)).run s = .error (.write e (cstr s.holder.self.name)) s := by
  have hx : (Descriptor.write bytes n fun _ => answer).run s.holder = .error (.write e (cstr s.holder.self.name)) s.holder := by
    rw [Descriptor.run_write, h]
  exact run_zoom_error hx

/-- A write that is answered with a count. -/
theorem run_writePage {count : Nat} (hbuffer : buffer = some (List.replicate pageSize 0)) (hwrite : sys.write i = .ok count) :
    (writePage sys buffer i).run s = .ok () { s with
      content := s.content.map fun d => overwrite d s.position (List.replicate count 0)
      position := s.position + count } := by
  subst hbuffer
  unfold writePage
  simp only [Option.getD_some, reduceCtorEq, if_false]
  rw [run_bind_ok (run_write_ok hwrite), List.take_replicate, Nat.min_eq_left (sys.write_le i count hwrite)]
  rfl

/-- Without a buffer, or with an error for an answer, the write throws. -/
theorem ok_of_writePage (h : (writePage sys buffer i).run s = .ok () s') : buffer ≠ none ∧ ∃ count, sys.write i = .ok count := by
  unfold writePage at h
  have hthrows : ∀ e, (if buffer = none then .error eFault else sys.write i) = .error e → False := by
    intro e he
    rw [run_bind_error (run_write_error he)] at h
    cases h
  by_cases hbuffer : buffer = none
  · exact (hthrows eFault (if_pos hbuffer)).elim
  · refine ⟨hbuffer, ?_⟩
    cases hwrite : sys.write i with
    | ok count => exact ⟨count, rfl⟩
    | error e => exact (hthrows e ((if_neg hbuffer).trans hwrite)).elim

variable (prev) in
/-- The loop puts zeros over the beginning of what was there. -/
theorem run_zeroLoop (hbuffer : buffer = none ∨ buffer = some (List.replicate pageSize 0)) :
    ∀ {n i : Nat} {s s' : Zeroing}, (zeroLoop sys buffer n i).run s = .ok () s' →
      s.content = some (zeroedOver prev (sys.written i)) → s.position = sys.written i →
      s'.content = some (zeroedOver prev (sys.written (i + n)))
  | 0, i, s, s', h, hcontent, _ => by
    cases h
    exact hcontent
  | n + 1, i, s, s', h, hcontent, hposition => by
    unfold zeroLoop at h
    obtain ⟨u, s₁, hpage, h⟩ := exists_of_bind_ok h
    obtain ⟨hnot, count, hwrite⟩ := ok_of_writePage hpage
    have hwritten : sys.written (i + 1) = sys.written i + count := by
      rw [ZeroSystem.written, hwrite]
    rw [run_writePage (hbuffer.resolve_left hnot) hwrite] at hpage
    cases hpage
    rw [show i + (n + 1) = i + 1 + n by omega]
    refine run_zeroLoop hbuffer h ?_ ?_
    · show s.content.map _ = _
      rw [hcontent, hposition, Option.map_some, overwrite_zeroedOver, hwritten]
    · show s.position + count = _
      rw [hposition, hwritten]

/-! ## What `zero` leaves -/

theorem content_onFd (x : Descriptor.Member Descriptor.Opener α) (s : Zeroing) : ((onFd x).run s).state.content = s.content := by
  unfold onFd
  rw [state_zoom]

/-- Opening a file keeps its content. -/
theorem content_of_openZeroed (h : (openZeroed f (Descriptor.flags false true) sys.open).run s = .ok () s') :
    s'.content = some (s.content.getD []) ∧ s'.position = 0 := by
  have hopened : opened (Descriptor.flags false true) s.content = some (s.content.getD []) := by
    cases s.content <;> rfl
  unfold openZeroed at h
  rw [run_bind_ok (run_get s), hopened] at h
  unfold Descriptor.construct at h
  cases hanswer : sys.open with
  | some e =>
    rw [hanswer] at h
    cases h
  | none =>
    rw [hanswer] at h
    cases h
    exact ⟨rfl, rfl⟩

/-- When `zero` returns, its writes were all answered, and the rest of the old content is still there. -/
theorem content_of_zero (h : (f.zero sys).run s = .ok () s') :
    s'.content = some (zeroedOver (s.content.getD []) (sys.written (f.pageNum pageSize).toNat)) := by
  unfold zero at h
  cases hwrite : f.mapWrite with
  | false =>
    rw [hwrite] at h
    cases h
  | true =>
    rw [hwrite] at h
    change (openZeroed f (Descriptor.flags false true) sys.open >>= fun _ => _).run s = _ at h
    obtain ⟨u, s₁, hopen, h⟩ := exists_of_bind_ok h
    obtain ⟨s₂, hbody, rfl⟩ := exists_of_cleanup_ok h
    obtain ⟨u, s₃, hloop, hclose⟩ := exists_of_bind_ok hbody
    obtain ⟨hcontent, hposition⟩ := content_of_openZeroed hopen
    have hbuffer : ∀ b : Bool, (if b then none else some (List.replicate pageSize (0 : Byte))) = none ∨
        (if b then none else some (List.replicate pageSize (0 : Byte))) = some (List.replicate pageSize 0) := by
      intro b
      cases b <;> simp
    have hkept := content_onFd (Descriptor.close sys.close) s₃
    rw [hclose] at hkept
    rw [content_onFd]
    refine hkept.trans ?_
    have hzeros := run_zeroLoop (s.content.getD []) (hbuffer sys.callocFails) hloop ?_ hposition
    · rwa [Nat.zero_add] at hzeros
    · exact hcontent

/-- **When `zero` returns, the file is the extent of zeros iff the writes and what was there before together have its length,
and nothing but zeros was there behind the writes.** -/
theorem zero_extent_iff (f : MapFile) (sys : ZeroSystem pageSize) (s s' : Zeroing) (h : (f.zero sys).run s = .ok () s') :
    s'.content = some (List.replicate (f.mapSize + f.mapOffset) 0) ↔
      max (s.content.getD []).length (sys.written (f.pageNum pageSize).toNat) = f.mapSize + f.mapOffset ∧
        ∀ b ∈ (s.content.getD []).drop (sys.written (f.pageNum pageSize).toNat), b = 0 := by
  rw [content_of_zero h, Option.some_inj]
  exact zeroedOver_eq_replicate_iff _ _ _

/-- Where every write takes its page, the old file must not be longer. -/
theorem zero_extent_iff_of_full (hpages : ∀ i, sys.write i = .ok pageSize) (hsize : f.mapSize % pageSize = 0)
    (hoffset : f.mapOffset % pageSize = 0) (hint : (f.mapSize + f.mapOffset) / pageSize < 2147483648)
    (hword : f.mapSize + f.mapOffset < 18446744073709551616) (h : (f.zero sys).run s = .ok () s') :
    s'.content = some (List.replicate (f.mapSize + f.mapOffset) 0) ↔ (s.content.getD []).length ≤ f.mapSize + f.mapOffset := by
  have hwritten : ∀ n, sys.written n = n * pageSize := by
    intro n
    induction n with
    | zero => exact (Nat.zero_mul pageSize).symm
    | succ n ih => rw [ZeroSystem.written, hpages, ih, Nat.succ_mul]
  have hall : sys.written (f.pageNum pageSize).toNat = f.mapSize + f.mapOffset := by
    unfold pageNum
    rw [hwritten, Nat.mod_eq_of_lt hword, toInt_of_lt hint, Int.toNat_natCast]
    exact Nat.div_mul_cancel (Nat.dvd_add (Nat.dvd_of_mod_eq_zero hsize) (Nat.dvd_of_mod_eq_zero hoffset))
  rw [zero_extent_iff f sys s s' h, hall]
  constructor
  · rintro ⟨hmax, -⟩
    omega
  · intro hle
    refine ⟨by omega, fun b hb => ?_⟩
    rw [List.drop_of_length_le hle] at hb
    cases hb

/-- A page of 16 bytes, every call succeeds. -/
def onePage : ZeroSystem 16 where
  «open» := none
  callocFails := false
  write := fun _ => .ok 16
  write_le := fun _ _ h => (Except.ok.inj h).ge
  close := .done

/-- A file of one page to write. -/
def pageFile : MapFile := ⟨⟨text "/m"⟩, 0, 16, 0, none, 0o644, false, true, false⟩

/-- A process with no file open. -/
def holding (content : Option Str) : Zeroing := ⟨content, 0, ⟨⟨[]⟩, ⟨none, []⟩, []⟩⟩

theorem pages_pageFile : (pageFile.pageNum 16).toNat = 1 := by decide

theorem returns_onePage (content : Option Str) : ∃ s', (pageFile.zero onePage).run (holding content) = .ok () s' := by
  unfold zero
  rw [pages_pageFile]
  cases content with
  | none => exact ⟨_, rfl⟩
  | some prev => exact ⟨_, rfl⟩

theorem zero_extent_iff_absent : ∃ s', (pageFile.zero onePage).run (holding none) = .ok () s' ∧
    s'.content = some (List.replicate 16 0) := by
  obtain ⟨s', hrun⟩ := returns_onePage none
  refine ⟨s', hrun, (zero_extent_iff pageFile onePage (holding none) s' hrun).2 ?_⟩
  rw [pages_pageFile]
  exact ⟨by decide, by simp [holding]⟩

/-- The end of a longer file stays. -/
theorem zero_keeps_longer : ¬ ∀ (pageSize : Nat) (f : MapFile) (sys : ZeroSystem pageSize) (s s' : Zeroing),
    f.mapWrite = true → f.mapSize % pageSize = 0 → f.mapOffset % pageSize = 0 →
    0 < f.mapSize + f.mapOffset → f.mapSize + f.mapOffset < 18446744073709551616 → (f.zero sys).run s = .ok () s' →
      s'.content = some (List.replicate (f.mapSize + f.mapOffset) 0) := by
  intro h
  obtain ⟨s', hrun⟩ := returns_onePage (some (List.replicate 17 1))
  have hzero := h 16 pageFile onePage _ s' rfl rfl rfl (by decide) (by decide) hrun
  have hlength : (zeroedOver (List.replicate 17 1) 16).length = 16 := by
    rw [content_of_zero hrun] at hzero
    exact (congrArg List.length (Option.some.inj hzero)).trans List.length_replicate
  rw [length_zeroedOver] at hlength
  exact absurd hlength (by decide)

end MapFile

end OksSystem
