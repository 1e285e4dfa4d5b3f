import ShitUndo.Basic
import ShitUndo.Lib.ByteOrder

/-!
# The fanotify event stream

`EventIter` (`fanotify/parse.rs`): the records of a buffer that was read from the kernel, one after
the other, each as long as its header says. On any bytes it ends: with the events of the records
that are well formed, then an error if anything is left, then nothing (`eventIter_spec`).
-/

namespace ShitUndo.Fanotify

open List

structure Event where
  mask : UInt64
  fd : Int32
  pid : Int32
  eventLen : UInt32
deriving DecidableEq, Repr

/-- `FANOTIFY_EVENT_METADATA_LEN`. -/
def metadataLen : Nat := 24

/-- `FANOTIFY_METADATA_VERSION`. -/
def metadataVersion : UInt8 := 3

inductive ParseError where
  | truncated (have_ need : Nat)
  | headerUnderflow (got : UInt32) (header : Nat)
  | overflow (got : UInt32) (remaining : Nat)
  | versionMismatch (got expected : UInt8)
deriving DecidableEq, Repr

structure EventIter where
  buf : Bytes
  poisoned : Bool

def EventIter.new (buf : Bytes) : EventIter := ⟨buf, false⟩

variable (ne : ByteOrder)

/-- The number in `n` bytes of a header from `i` on, in the byte order of the machine. -/
def field (h : Bytes) (i n : Nat) : Nat := ne.ofBytes ((h.drop i).take n)

/-- The event of a header. -/
def eventOf (h : Bytes) : Event where
  mask := .ofNat (field ne h 8 8)
  fd := (UInt32.ofNat (field ne h 16 4)).toInt32
  pid := (UInt32.ofNat (field ne h 20 4)).toInt32
  eventLen := .ofNat (field ne h 0 4)

def version (h : Bytes) : UInt8 := (h.drop 4).headD 0

def EventIter.next (it : EventIter) : Option (Except ParseError Event) × EventIter :=
  let poison (e : ParseError) := (some (.error e), { it with poisoned := true })
  if it.poisoned ∨ it.buf = [] then (none, it)
  else if it.buf.length < metadataLen then poison (.truncated it.buf.length metadataLen)
  else
    let h := it.buf.take metadataLen
    let ev := eventOf ne h
    if version h ≠ metadataVersion then poison (.versionMismatch (version h) metadataVersion)
    else if ev.eventLen.toNat < metadataLen then poison (.headerUnderflow ev.eventLen metadataLen)
    else if ev.eventLen.toNat > it.buf.length then poison (.overflow ev.eventLen it.buf.length)
    else (some (.ok ev), { it with buf := it.buf.drop ev.eventLen.toNat })

/-- What the `k`-th call of `next` returns. -/
def EventIter.call (it : EventIter) : Nat → Option (Except ParseError Event)
  | 0 => (it.next ne).1
  | k + 1 => (it.next ne).2.call k

/-! ## Records -/

/-- The length in the header at the start of `buf`. -/
def lenAt (buf : Bytes) : Nat := (eventOf ne (buf.take metadataLen)).eventLen.toNat

/-- A well-formed record stands at the start of `buf`. -/
def Starts (buf : Bytes) : Prop :=
  version (buf.take metadataLen) = metadataVersion ∧ metadataLen ≤ lenAt ne buf ∧
    lenAt ne buf ≤ buf.length

/-- The well-formed records from the start of a buffer on, as many as there are, are those of the
events; `rest` is what is left. -/
inductive Records : Bytes → List Event → Bytes → Prop where
  | stop {rest : Bytes} (h : ¬ Starts ne rest) : Records rest [] rest
  | record {buf rest : Bytes} {events : List Event} (h : Starts ne buf)
      (htail : Records (buf.drop (lenAt ne buf)) events rest) :
      Records buf (eventOf ne (buf.take metadataLen) :: events) rest

/-- An event with the rest of its record. -/
structure Record where
  event : Event
  reserved : UInt8
  metaLen : UInt16
  info : Bytes
  len : event.eventLen.toNat = metadataLen + info.length

def Record.encode (r : Record) : Bytes :=
  ne.toBytes 4 r.event.eventLen.toNat ++ (metadataVersion :: r.reserved ::
    (ne.toBytes 2 r.metaLen.toNat ++ (ne.toBytes 8 r.event.mask.toNat ++
      (ne.toBytes 4 r.event.fd.toUInt32.toNat ++
        (ne.toBytes 4 r.event.pid.toUInt32.toNat ++ r.info)))))

variable {ne} {buf rest : Bytes} {events : List Event}

theorem next_of_starts (h : Starts ne buf) :
    (EventIter.new buf).next ne =
      (some (.ok (eventOf ne (buf.take metadataLen))), .new (buf.drop (lenAt ne buf))) := by
  obtain ⟨hversion, hmin, hmax⟩ := h
  have hlen := (hmin.trans hmax).not_gt
  have hne : buf ≠ [] := by
    rintro rfl
    exact hlen (by decide)
  rw [lenAt] at hmin hmax
  simp [EventIter.next, EventIter.new, lenAt, hne, hlen, hversion, hmin.not_gt, hmax.not_gt]

theorem next_of_not_starts (h : ¬ Starts ne buf) (hne : buf ≠ []) :
    ∃ e, (EventIter.new buf).next ne = (some (.error e), ⟨buf, true⟩) := by
  generalize hnext : (EventIter.new buf).next ne = out
  simp only [EventIter.next] at hnext
  split_ifs at hnext with hdone hshort hversion hmin hmax
  · exact absurd hdone (by simp [EventIter.new, hne])
  · exact ⟨_, hnext.symm⟩
  · exact ⟨_, hnext.symm⟩
  · exact ⟨_, hnext.symm⟩
  · exact ⟨_, hnext.symm⟩
  · exact absurd ⟨not_not.mp hversion, not_lt.mp hmin, not_lt.mp hmax⟩ h

/-- Where no record starts there is at most an error, and then nothing any more. -/
theorem call_of_not_starts (h : ¬ Starts ne buf) :
    ∃ err : Option ParseError, (err = none ↔ buf = []) ∧
      ∀ k, (EventIter.new buf).call ne k = (err.toList.map .error)[k]? := by
  have hdone : ∀ it : EventIter, it.next ne = (none, it) → ∀ k, it.call ne k = none := by
    intro it hit k
    induction k with
    | zero => rw [EventIter.call, hit]
    | succ k ih => rw [EventIter.call, hit, ih]
  rcases eq_or_ne buf [] with rfl | hne
  · exact ⟨none, by simp, hdone _ rfl⟩
  · obtain ⟨e, hnext⟩ := next_of_not_starts h hne
    refine ⟨some e, by simp [hne], ?_⟩
    rintro (_ | k)
    · simp [EventIter.call, hnext]
    · simp [EventIter.call, hnext, hdone ⟨buf, true⟩ rfl]

theorem exists_records (ne : ByteOrder) (buf : Bytes) :
    ∃ events rest, Records ne buf events rest := by
  induction hn : buf.length using Nat.strong_induction_on generalizing buf with
  | _ n ih =>
    by_cases hstarts : Starts ne buf
    · have hshorter : (buf.drop (lenAt ne buf)).length < n := by
        rw [length_drop, ← hn]
        have := hstarts.2
        rw [metadataLen] at this
        omega
      obtain ⟨events, rest, hrest⟩ := ih _ hshorter _ rfl
      exact ⟨_, rest, .record hstarts hrest⟩
    · exact ⟨[], buf, .stop hstarts⟩

theorem Records.sum_le (h : Records ne buf events rest) :
    (events.map fun ev => ev.eventLen.toNat).sum + rest.length = buf.length := by
  induction h with
  | stop => simp
  | record hstarts _ ih =>
    have := hstarts.2.2
    rw [length_drop] at ih
    rw [map_cons, sum_cons, ← lenAt]
    omega

theorem Records.call (h : Records ne buf events rest) :
    ∃ err : Option ParseError, (err = none ↔ rest = []) ∧
      ∀ k, (EventIter.new buf).call ne k = (events.map .ok ++ err.toList.map .error)[k]? := by
  induction h with
  | stop hstop => exact call_of_not_starts hstop
  | record hstarts _ ih =>
    obtain ⟨err, herr, hcall⟩ := ih
    refine ⟨err, herr, ?_⟩
    rintro (_ | k)
    · simp [EventIter.call, next_of_starts hstarts]
    · rw [EventIter.call, next_of_starts hstarts, hcall]
      rfl

theorem records_encode (records : List Record) :
    Records ne (records.flatMap (Record.encode ne)) (records.map Record.event) [] := by
  have hu32 : ∀ x : UInt32, ne.ofBytes (ne.toBytes 4 x.toNat) = x.toNat := fun x =>
    ByteOrder.ofBytes_toBytes x.toNat_lt
  induction records with
  | nil => exact .stop fun h => absurd (h.2.1.trans h.2.2) (by simp [metadataLen])
  | cons r records ih =>
    have hu64 : ne.ofBytes (ne.toBytes 8 r.event.mask.toNat) = r.event.mask.toNat :=
      ByteOrder.ofBytes_toBytes r.event.mask.toNat_lt
    have hhead : ∀ rest, eventOf ne ((r.encode ne ++ rest).take metadataLen) = r.event ∧
        version ((r.encode ne ++ rest).take metadataLen) = metadataVersion := by
      simp [eventOf, version, field, Record.encode, metadataLen, take_append, drop_append,
        take_of_length_le, drop_of_length_le, hu32, hu64]
    have hsize : (r.encode ne).length = r.event.eventLen.toNat := by
      rw [r.len]
      simp [Record.encode, metadataLen]
      omega
    obtain ⟨hevent, hversion⟩ := hhead (records.flatMap (Record.encode ne))
    have hlen : lenAt ne (r.encode ne ++ records.flatMap (Record.encode ne)) =
        (r.encode ne).length := by rw [lenAt, hevent, hsize]
    rw [flatMap_cons, map_cons, ← hevent]
    refine .record ⟨hversion, ?_, ?_⟩ ?_
    · rw [hlen, hsize, r.len]
      omega
    · rw [hlen, length_append]
      omega
    · rw [hlen, drop_left]
      exact ih

/-- **On every buffer**, the calls of `next` return the events of the well-formed records at its
start, as many as there are, then an error if anything is left, and then nothing; these records
are no longer than the buffer. **On the encoding of a list of events** they return that list. -/
theorem eventIter_spec (ne : ByteOrder) :
    (∀ buf, ∃ events rest, Records ne buf events rest ∧
      (events.map fun ev => ev.eventLen.toNat).sum ≤ buf.length ∧
      ∃ err : Option ParseError, (err = none ↔ rest = []) ∧
        ∀ k, (EventIter.new buf).call ne k = (events.map .ok ++ err.toList.map .error)[k]?) ∧
    ∀ (records : List Record) k,
      (EventIter.new (records.flatMap (Record.encode ne))).call ne k =
        (records.map fun r => .ok r.event)[k]? := by
  constructor
  · intro buf
    obtain ⟨events, rest, h⟩ := exists_records ne buf
    have := h.sum_le
    exact ⟨events, rest, h, by omega, h.call⟩
  · intro records k
    obtain ⟨err, herr, hcall⟩ := (records_encode records).call
    rw [hcall, herr.mpr rfl]
    simp [Function.comp_def]

end ShitUndo.Fanotify
