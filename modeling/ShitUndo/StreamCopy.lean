import ShitUndo.IndexTables
import Mathlib.Data.List.Infix

/-!
# The streaming copy

`stream_into_fd` (`capture/streaming.rs`) copies a file into the staging area in pieces, hashing
what it reads. The kernel is free to return less than was asked for, to interrupt a call, and
between two reads the file may get shorter. Whatever it does, a copy that returns is the start of
the file, with its hash and its length (`streamIntoFd_ok`).
-/

namespace ShitUndo

open List

/-- An incremental hash function. -/
structure Hasher (σ δ : Type) where
  new : σ
  update : σ → Bytes → σ
  finalize : σ → δ
  update_nil : ∀ s, update s [] = s
  update_append : ∀ s a b, update s (a ++ b) = update (update s a) b

/-- The hash of all bytes at once. -/
def Hasher.hash {σ δ : Type} (h : Hasher σ δ) (bytes : Bytes) : δ :=
  h.finalize (h.update h.new bytes)

inductive StreamError where
  | pread (errno : Nat)
  | write (errno : Nat)
deriving DecidableEq, Repr

def eintr : Nat := 4

/-- `STREAM_COPY_CHUNK`. -/
def streamCopyChunk : Nat := 64 * 1024

/-- What the kernel makes of a call: it fails, or transfers no more than `n` bytes. -/
inductive Answer where
  | failed (errno : Nat)
  | upTo (n : Nat)
deriving DecidableEq, Repr

/-- A `pread`, before which the file is cut to `len` bytes if it is longer, and the calls of `write`
for what it returns. -/
structure Read where
  len : Nat
  answer : Answer
  writes : List Answer
deriving DecidableEq, Repr

/-- The inner loop, with what is left of the buffer. `none`: it has not ended with these answers. -/
def writeLoop : Bytes → Bytes → List Answer → Option (Except StreamError Unit × Bytes)
  | [], staged, _ => some (.ok (), staged)
  | _ :: _, _, [] => none
  | rest, staged, .failed errno :: answers =>
    if errno = eintr then writeLoop rest staged answers else some (.error (.write errno), staged)
  | rest, staged, .upTo n :: answers => writeLoop (rest.drop n) (staged ++ rest.take n) answers

variable {σ δ : Type} (h : Hasher σ δ)

/-- The outer loop. A `pread` transfers at least one byte before the end of the file. -/
def copyLoop (target : Int) (file : Bytes) (s : σ) (offset : Nat) (staged : Bytes) :
    List Read → Option (Except StreamError (δ × Nat) × Bytes)
  | [] => if offset < target then none else some (.ok (h.finalize s, offset), staged)
  | r :: reads =>
    if offset < target then
      let file := file.take r.len
      match r.answer with
      | .failed errno =>
        if errno = eintr then copyLoop target file s offset staged reads
        else some (.error (.pread errno), staged)
      | .upTo n =>
        let want := min (target - offset).toNat streamCopyChunk
        let buf := (file.drop offset).take (min want (max n 1))
        if buf = [] then some (.ok (h.finalize s, offset), staged)
        else
          match writeLoop buf staged r.writes with
          | none => none
          | some (.error e, staged) => some (.error e, staged)
          | some (.ok (), staged) =>
            copyLoop target file (h.update s buf) (offset + buf.length) staged reads
    else some (.ok (h.finalize s, offset), staged)

/-- `stream_into_fd`: the result, and what was written. -/
def streamIntoFd (file : Bytes) (cap : Nat) (reads : List Read) :
    Option (Except StreamError (δ × Nat) × Bytes) :=
  copyLoop h (toI64 cap) file h.new 0 [] reads

variable {h} {target : Int} {file orig staged out : Bytes} {offset n cap : Nat}
  {reads : List Read} {hash : δ}

theorem writeLoop_ok {rest : Bytes} {answers : List Answer}
    (hrun : writeLoop rest staged answers = some (.ok (), out)) : out = staged ++ rest := by
  fun_induction writeLoop rest staged answers with
  | case1 staged answers =>
    cases hrun
    simp
  | case2 => cases hrun
  | case3 rest staged answers _ ih => exact ih hrun
  | case4 => cases hrun
  | case5 rest staged n answers _ ih => rw [ih hrun, append_assoc, take_append_drop]

/-- The file has `target` bytes, and keeps them. -/
def Keeps (target : Int) (file : Bytes) (reads : List Read) : Prop :=
  target ≤ file.length ∧ ∀ r ∈ reads, target ≤ r.len

theorem Keeps.cut {r : Read} (hkeeps : Keeps target file (r :: reads)) :
    Keeps target (file.take r.len) reads := by
  obtain ⟨hfile, hreads⟩ := hkeeps
  have hr := hreads r mem_cons_self
  refine ⟨?_, fun x hx => hreads x (mem_cons_of_mem r hx)⟩
  rw [length_take]
  omega

theorem copyLoop_ok {s : σ} (hfile : file <+: orig) (hoffset : offset ≤ orig.length)
    (htarget : offset ≤ target.toNat) (hstaged : staged = orig.take offset)
    (hs : s = h.update h.new staged)
    (hrun : copyLoop h target file s offset staged reads = some (.ok (hash, n), out)) :
    (n ≤ orig.length ∧ n ≤ target.toNat ∧ out = orig.take n ∧ hash = h.hash out) ∧
      (Keeps target file reads → target ≤ n) := by
  fun_induction copyLoop h target file s offset staged reads with
  | case1 => cases hrun
  | case2 file s offset staged hend | case9 file s offset staged r reads hend =>
    cases hrun
    exact ⟨⟨hoffset, htarget, hstaged, by rw [hs, Hasher.hash]⟩, fun _ => not_lt.mp hend⟩
  | case3 file s offset staged r reads hmore file' _ ih =>
    have hcut : file' <+: file := take_prefix _ _
    obtain ⟨hall, hkeep⟩ := ih (hcut.trans hfile) hoffset htarget hstaged hs hrun
    exact ⟨hall, fun hkeeps => hkeep hkeeps.cut⟩
  | case4 => cases hrun
  | case5 file s offset staged r reads hmore file' k _ want buf hempty =>
    cases hrun
    refine ⟨⟨hoffset, htarget, hstaged, by rw [hs, Hasher.hash]⟩, fun hkeeps => ?_⟩
    -- a read before the end of the file returns something
    have hlong := hkeeps.cut.1
    have hnone := congrArg length hempty
    simp only [buf, want, file', streamCopyChunk, length_take, length_drop, length_nil]
      at hnone hlong
    omega
  | case6 => cases hrun
  | case7 => cases hrun
  | case8 file s offset staged r reads hmore file' k _ want buf _ staged' hwrite ih =>
    have hcut : file' <+: file := take_prefix _ _
    have hfile' : file' <+: orig := hcut.trans hfile
    have hread : buf <+: file'.drop offset := take_prefix _ _
    have hbuf : buf <+: orig.drop offset := hread.trans (hfile'.drop offset)
    have hle := hbuf.length_le
    have hwant : buf.length ≤ want := (length_take_le _ _).trans (Nat.min_le_left _ _)
    rw [length_drop] at hle
    have hout := writeLoop_ok hwrite
    obtain ⟨hall, hkeep⟩ := ih hfile' (by omega) (by simp only [want] at hwant; omega)
      (by rw [hout, hstaged, take_add, ← prefix_iff_eq_take.mp hbuf])
      (by rw [hout, hs, h.update_append]) hrun
    exact ⟨hall, fun hkeeps => hkeep hkeeps.cut⟩

/-- **A copy that returns is the start of the file**, with its hash and its length, which is the
size that was asked for unless the file got shorter. Files are shorter than `2 ^ 63` bytes. -/
theorem streamIntoFd_ok (hcap : cap < 2 ^ 64) (hfile : file.length < 2 ^ 63)
    (hrun : streamIntoFd h file cap reads = some (.ok (hash, n), out)) :
    n ≤ file.length ∧ out = file.take n ∧ hash = h.hash out ∧ n ≤ cap ∧
      (cap ≤ file.length → (∀ r ∈ reads, cap ≤ r.len) → n = cap) := by
  have htarget : toI64 cap = cap ∨ toI64 cap < 0 ∧ 2 ^ 63 ≤ cap := by
    unfold toI64
    rw [Int.bmod]
    omega
  obtain ⟨⟨hlen, hle, hout, hhash⟩, hkeep⟩ := copyLoop_ok (prefix_refl file) (Nat.zero_le _)
    (Nat.zero_le _) (take_zero).symm (h.update_nil _).symm hrun
  refine ⟨hlen, hout, hhash, by omega, fun hsize hreads => ?_⟩
  rcases htarget with heq | hneg
  · have := hkeep ⟨by omega, fun r hr => by have := hreads r hr; omega⟩
    omega
  · omega

/-- A hash function that keeps everything. -/
def Hasher.transcript : Hasher Bytes Bytes :=
  ⟨[], (· ++ ·), id, append_nil, fun s a b => (append_assoc s a b).symm⟩

/-- An interrupted read, a short one that is written in two parts, and the rest. -/
def interruptedReads : List Read :=
  [⟨3, .failed eintr, []⟩, ⟨3, .upTo 2, [.upTo 1, .failed eintr, .upTo 9]⟩, ⟨3, .upTo 9, [.upTo 1]⟩]

theorem streamIntoFd_interrupted :
    3 ≤ 3 ∧ ([1, 2, 3] : Bytes) = [1, 2, 3].take 3 ∧
      [1, 2, 3] = Hasher.transcript.hash [1, 2, 3] ∧ 3 ≤ 3 ∧
      (3 ≤ 3 → (∀ r ∈ interruptedReads, 3 ≤ r.len) → 3 = 3) :=
  streamIntoFd_ok (by decide) (by decide) (by decide +kernel : streamIntoFd .transcript [1, 2, 3] 3
    interruptedReads = some (.ok ([1, 2, 3], 3), [1, 2, 3]))

end ShitUndo
