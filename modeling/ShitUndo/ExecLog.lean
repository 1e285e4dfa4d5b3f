import ShitUndo.Orchestrator
import ShitUndo.Lib.ByteOrder

/-!
# The execution log

`exec_log.rs`: every record of an undo run is appended to a file, its length in four little-endian
bytes and then its encoding. The lengths lead from one record to the next, so a file that was cut
off is read up to the cut, and a cut inside of a record is noticed there (`readAll_cut`).
-/

namespace ShitUndo

open List Nat

inductive ExecLogError where
  | postcard (message : String)
  | truncated (at_ : Nat)
deriving DecidableEq, Repr

/-- The file and the number of records written to it. -/
structure ExecLog where
  file : Bytes
  written : Nat
deriving DecidableEq

/-- `ExecLog::create`: the file is new. -/
def ExecLog.create : ExecLog := ⟨[], 0⟩

/-- The codec of the records, which decodes what it encoded. -/
structure Postcard where
  toAllocvec : ExecutionRecord → Except String Bytes
  fromBytes : Bytes → Except String ExecutionRecord
  roundTrip : ∀ r body, toAllocvec r = .ok body → fromBytes body = .ok r

namespace Postcard

variable (pc : Postcard)

/-- What `append` writes. -/
def frame (body : Bytes) : Bytes := ByteOrder.little.toBytes 4 body.length ++ body

def append (log : ExecLog) (r : ExecutionRecord) : Except ExecLogError ExecLog :=
  match pc.toAllocvec r with
  | .error message => .error (.postcard message)
  | .ok body =>
    if body.length < 2 ^ 32 then .ok ⟨log.file ++ frame body, log.written + 1⟩
    else .error (.postcard "record exceeds 4 GiB")

/-- The loop of `read_all`; `rest` is what the file has from `offset` on. -/
def readLoop (offset : Nat) (out : List ExecutionRecord) (rest : Bytes) :
    Except ExecLogError (List ExecutionRecord) :=
  if rest = [] then .ok out
  else if rest.length < 4 then .error (.truncated offset)
  else
    let len := ByteOrder.little.ofBytes (rest.take 4)
    let behind := rest.drop 4
    if behind.length < len then .error (.truncated offset)
    else
      match pc.fromBytes (behind.take len) with
      | .error message => .error (.postcard message)
      | .ok r => readLoop (offset + (4 + len)) (out ++ [r]) (behind.drop len)
termination_by rest.length
decreasing_by
  simp only [length_drop]
  omega

def readAll (file : Bytes) : Except ExecLogError (List ExecutionRecord) := pc.readLoop 0 [] file

/-- What a record adds to the file. -/
def recordBytes (r : ExecutionRecord) : Bytes :=
  match pc.toAllocvec r with
  | .error _ => []
  | .ok body => frame body

/-- Where the record after `recs` starts. -/
def start (recs : List ExecutionRecord) : Nat := (recs.flatMap pc.recordBytes).length

/-- `append` accepts the record. -/
def Fits (r : ExecutionRecord) : Prop :=
  ∃ body, pc.toAllocvec r = .ok body ∧ body.length < 2 ^ 32

variable {pc} {r : ExecutionRecord} {recs out : List ExecutionRecord} {log log' : ExecLog}
  {offset cut : Nat} {rest : Bytes}

theorem start_cons : pc.start (r :: recs) = (pc.recordBytes r).length + pc.start recs := by
  rw [start, flatMap_cons, length_append, start]

theorem append_ok (h : pc.append log r = .ok log') :
    pc.Fits r ∧ log'.file = log.file ++ pc.recordBytes r := by
  unfold append at h
  cases hr : pc.toAllocvec r with
  | error message => simp [hr] at h
  | ok body =>
    simp only [hr] at h
    split at h
    · rename_i hlen
      cases h
      exact ⟨⟨body, hr, hlen⟩, by simp [recordBytes, hr]⟩
    · cases h

theorem foldlM_append_ok (h : recs.foldlM pc.append log = .ok log') :
    (∀ r ∈ recs, pc.Fits r) ∧ log'.file = log.file ++ recs.flatMap pc.recordBytes := by
  induction recs generalizing log with
  | nil =>
    cases h
    simp
  | cons r recs ih =>
    rw [foldlM_cons] at h
    cases hr : pc.append log r with
    | error e => rw [hr] at h; cases h
    | ok mid =>
      rw [hr] at h
      obtain ⟨hfits, hmid⟩ := append_ok hr
      obtain ⟨hall, hfile⟩ := ih h
      exact ⟨forall_mem_cons.mpr ⟨hfits, hall⟩, by simp [hfile, hmid]⟩

theorem Fits.recordBytes (hr : pc.Fits r) :
    ∃ body, pc.fromBytes body = .ok r ∧ pc.recordBytes r = frame body ∧
      ByteOrder.little.ofBytes (ByteOrder.little.toBytes 4 body.length) = body.length := by
  obtain ⟨body, hbody, hlen⟩ := hr
  exact ⟨body, pc.roundTrip r body hbody, by rw [Postcard.recordBytes, hbody],
    ByteOrder.ofBytes_toBytes hlen⟩

theorem readLoop_record (hr : pc.Fits r) :
    pc.readLoop offset out (pc.recordBytes r ++ rest) =
      pc.readLoop (offset + (pc.recordBytes r).length) (out ++ [r]) rest := by
  obtain ⟨body, hbody, hfile, hvalue⟩ := hr.recordBytes
  have hlength : (frame body).length = 4 + body.length := by simp [frame]
  rw [hfile, readLoop, if_neg (ne_nil_of_length_pos (by rw [length_append]; omega)),
    if_neg (by rw [length_append]; omega)]
  simp [frame, take_left', drop_left', hvalue, hbody]

theorem readLoop_cut (hr : pc.Fits r) (hpos : 0 < cut) (hcut : cut < (pc.recordBytes r).length) :
    pc.readLoop offset out ((pc.recordBytes r).take cut) = .error (.truncated offset) := by
  obtain ⟨body, -, hfile, hvalue⟩ := hr.recordBytes
  rw [hfile] at hcut ⊢
  have hsize : ((frame body).take cut).length = cut := length_take_of_le hcut.le
  rw [readLoop, if_neg (ne_nil_of_length_pos (by omega)), hsize]
  by_cases hshort : cut < 4
  · rw [if_pos hshort]
  · -- the length is there, the body is not
    have htake : ((frame body).take cut).take 4 = ByteOrder.little.toBytes 4 body.length := by
      rw [take_take, min_eq_left (by omega), frame, take_left' ByteOrder.length_toBytes]
    simp only [frame, length_append, ByteOrder.length_toBytes] at hcut
    rw [if_neg hshort, htake, hvalue, if_pos (by rw [length_drop, hsize]; omega)]

/-- What `read` gives of a file of `recs` that was cut: with `k` records wholly before the cut,
these records if nothing follows them, and otherwise the place where the next one starts. -/
def CutRead (pc : Postcard) (recs : List ExecutionRecord) (cut offset : Nat)
    (out : List ExecutionRecord) (read : Except ExecLogError (List ExecutionRecord)) : Prop :=
  ∃ k ≤ recs.length, pc.start (recs.take k) ≤ cut ∧
    (k < recs.length → cut < pc.start (recs.take (k + 1))) ∧
    read = if pc.start (recs.take k) = cut then .ok (out ++ recs.take k)
      else .error (.truncated (offset + pc.start (recs.take k)))

theorem readLoop_take (hrecs : ∀ r ∈ recs, pc.Fits r) (hcut : cut ≤ pc.start recs) :
    CutRead pc recs cut offset out
      (pc.readLoop offset out ((recs.flatMap pc.recordBytes).take cut)) := by
  induction recs generalizing offset out cut with
  | nil =>
    have hzero : cut = 0 := by simpa [start] using hcut
    exact ⟨0, by simp, by simp [start], by simp, by simp [hzero, start, readLoop]⟩
  | cons r recs ih =>
    obtain ⟨hr, hall⟩ := forall_mem_cons.mp hrecs
    rw [start_cons] at hcut
    rw [flatMap_cons, take_append]
    by_cases hwhole : (pc.recordBytes r).length ≤ cut
    · -- the record is before the cut, and what follows is a shorter log
      rw [take_of_length_le hwhole, readLoop_record hr]
      obtain ⟨k, hk, hle, hlt, hread⟩ := ih hall (Nat.sub_le_iff_le_add'.mpr hcut)
      refine ⟨k + 1, by simpa using hk, ?_, ?_, ?_⟩
      · rw [take_succ_cons, start_cons]
        omega
      · intro hmore
        have := hlt (by simpa using hmore)
        rw [take_succ_cons, start_cons]
        omega
      · rw [hread, take_succ_cons, start_cons, append_assoc, singleton_append, add_assoc]
        exact if_congr (by omega) rfl rfl
    · refine ⟨0, by simp, by simp [start], ?_, ?_⟩
      · intro _
        rw [take_succ_cons, start_cons]
        omega
      · rw [Nat.sub_eq_zero_of_le (by omega), take_zero, append_nil]
        rcases Nat.eq_zero_or_pos cut with rfl | hpos
        · simp [start, readLoop]
        · rw [readLoop_cut hr hpos (by omega)]
          simp [start, hpos.ne]

/-- **A cut log is read up to the cut**, and a record that is cut in two is noticed. -/
theorem readAll_cut (h : recs.foldlM pc.append .create = .ok log) (hcut : cut ≤ log.file.length) :
    log.file.length = pc.start recs ∧
      CutRead pc recs cut 0 [] (pc.readAll (log.file.take cut)) := by
  obtain ⟨hrecs, hfile⟩ := foldlM_append_ok h
  rw [hfile] at hcut ⊢
  exact ⟨rfl, readLoop_take hrecs hcut⟩

/-- A removal that was skipped. -/
def skippedUnlink (opIndex : Nat) : ExecutionRecord := ⟨opIndex, .unlink [], .files, .skipped, none⟩

/-- A codec for such records, which writes their number. -/
def sample : Postcard where
  toAllocvec r :=
    if r = skippedUnlink r.opIndex ∧ r.opIndex < 256 ^ 2 then
      .ok (ByteOrder.little.toBytes 2 r.opIndex)
    else .error "unsupported"
  fromBytes body :=
    if body.length = 2 then .ok (skippedUnlink (ByteOrder.little.ofBytes body))
    else .error "unexpected end"
  roundTrip r body h := by
    split at h
    · rename_i hr
      cases h
      simp [ByteOrder.ofBytes_toBytes hr.2, hr.1.symm]
    · cases h

/-- Two records, and a cut in the second. -/
theorem readAll_cut_inside :
    [skippedUnlink 3, skippedUnlink 258].foldlM sample.append .create
        = .ok ⟨[2, 0, 0, 0, 3, 0, 2, 0, 0, 0, 2, 1], 2⟩ ∧
      CutRead sample [skippedUnlink 3, skippedUnlink 258] 11 0 []
        (sample.readAll ([2, 0, 0, 0, 3, 0, 2, 0, 0, 0, 2, 1].take 11)) := by
  have hlog : [skippedUnlink 3, skippedUnlink 258].foldlM sample.append .create
      = .ok ⟨[2, 0, 0, 0, 3, 0, 2, 0, 0, 0, 2, 1], 2⟩ := by decide
  exact ⟨hlog, (readAll_cut hlog (by decide)).2⟩

end Postcard

end ShitUndo
