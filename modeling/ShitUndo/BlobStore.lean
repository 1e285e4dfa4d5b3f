import ShitUndo.FileSystem
import Mathlib.Data.Set.Function

/-!
# The blob store

`BlobStore` (`blob.rs`): pre-images on disk under the name of their hash. A blob file is a flag
byte followed by the bytes themselves or, from `COMPRESS_MIN_BYTES` on, by their zstd encoding.

`put` hashes what it stores, `get` does not: it returns what the file under the name decodes to,
and `BlobError::HashMismatch` is never raised. `blobIntegrity_iff` says for which directories the
store can be trusted all the same, and `Intact.putAll` that writes do not leave that set.

The hash and the codec are parameters; `decode_encode` is all that is assumed of zstd.
-/

namespace ShitUndo

open Function List Nat

inductive BlobError where
  | io (err : String)
  | hashMismatch (expected actual : BlobHash)
  | malformed (path : PathBuf)
  | unknownFlag (path : PathBuf) (flag : UInt8)
deriving DecidableEq, Repr

structure BlobStat where
  storedBytes : Nat
  compressed : Bool
deriving DecidableEq, Repr

/-- `BlobStore`: its root directory, and the hash and codec it uses. -/
structure BlobStore where
  root : PathBuf
  blake3 : Bytes → BlobHash
  zstdEncode : Bytes → Bytes
  zstdDecode : Bytes → Option Bytes
  decode_encode : ∀ bytes, zstdDecode (zstdEncode bytes) = some bytes

/-- The files under the root: any bytes under any name. -/
abbrev BlobDir := PathBuf → Option Bytes

def compressMinBytes : Nat := 4096

def flagRaw : UInt8 := 0x00

def flagZstd : UInt8 := 0x01

@[simp] theorem flagZstd_ne_flagRaw : flagZstd ≠ flagRaw := by decide

namespace BlobStore

variable (store : BlobStore)

/-- `path_for`: two levels of shards, then the hash in hexadecimal. -/
def pathFor (hash : BlobHash) : PathBuf :=
  let hex := hash.toHex.toList
  store.root ++ [.normal "blobs", .normal (String.ofList (hex.take 2)),
    .normal (String.ofList ((hex.drop 2).take 2)), .normal hash.toHex]

/-- The flag byte of a file, as `stat` reports it. -/
def fileStat (path : PathBuf) : Bytes → Except BlobError BlobStat
  | [] => .error (.io "failed to fill whole buffer")
  | flag :: payload =>
    if flag = flagRaw then .ok ⟨payload.length + 1, false⟩
    else if flag = flagZstd then .ok ⟨payload.length + 1, true⟩
    else .error (.unknownFlag path flag)

def stat (dir : BlobDir) (hash : BlobHash) : Except BlobError (Option BlobStat) :=
  match dir (store.pathFor hash) with
  | none => .ok none
  | some file => (fileStat (store.pathFor hash) file).map some

/-- The content of a blob file. -/
def decodeFile (path : PathBuf) : Bytes → Except BlobError Bytes
  | [] => .error (.malformed path)
  | flag :: payload =>
    if flag = flagRaw then .ok payload
    else if flag = flagZstd then
      match store.zstdDecode payload with
      | some bytes => .ok bytes
      | none => .error (.io "zstd decode")
    else .error (.unknownFlag path flag)

def get (dir : BlobDir) (hash : BlobHash) : Except BlobError Bytes :=
  match dir (store.pathFor hash) with
  | none => .error (.io Errno.enoent.text)
  | some file => store.decodeFile (store.pathFor hash) file

/-- What `write_atomic` leaves in the file. -/
def encodeFile (bytes : Bytes) : Bytes :=
  if compressMinBytes ≤ bytes.length then flagZstd :: store.zstdEncode bytes
  else flagRaw :: bytes

/-- `put`. `ioErr` is the error the write runs into, if any. -/
def put (ioErr : Option String) (bytes : Bytes) (dir : BlobDir) :
    Except BlobError (BlobHash × BlobStat) × BlobDir :=
  let hash := store.blake3 bytes
  match dir (store.pathFor hash) with
  | some file => ((fileStat (store.pathFor hash) file).map fun st => (hash, st), dir)
  | none =>
    match ioErr with
    | some e => (.error (.io e), dir)
    | none =>
      let file := store.encodeFile bytes
      (.ok (hash, ⟨file.length, decide (compressMinBytes ≤ bytes.length)⟩),
        update dir (store.pathFor hash) (some file))

def contains (dir : BlobDir) (hash : BlobHash) : Bool := (dir (store.pathFor hash)).isSome

/-- `delete`; a file that is not there is no error. -/
def delete (dir : BlobDir) (hash : BlobHash) : BlobDir :=
  update dir (store.pathFor hash) none

/-- The directory after some `put` calls. -/
def putAll (puts : List (Option String × Bytes)) (dir : BlobDir) : BlobDir :=
  puts.foldl (fun d p => (store.put p.1 p.2 d).2) dir

end BlobStore

/-! ## Names -/

theorem digitChar_injOn {m n : Nat} (hm : m < 16) (hn : n < 16)
    (h : digitChar m = digitChar n) : m = n := by
  have hall : ∀ a b : Fin 16, digitChar a = digitChar b → a = b := by decide
  exact congrArg Fin.val (hall ⟨m, hm⟩ ⟨n, hn⟩ h)

theorem BlobHash.toHex_injective : Function.Injective BlobHash.toHex := by
  intro a b h
  have hdigits := map_inj_left.mp (String.ofList_injective h)
  have hnibble : ∀ k < 64, a.digest.toNat >>> (4 * k) % 16 = b.digest.toNat >>> (4 * k) % 16 := by
    intro k hk
    have hd := hdigits (63 - k) (mem_range.mpr (by omega))
    rw [show 63 - (63 - k) = k by omega] at hd
    simpa using digitChar_injOn (mod_lt _ (by decide)) (mod_lt _ (by decide)) hd
  have hbits : a.digest = b.digest := by
    refine BitVec.eq_of_getLsbD_eq fun j hj => ?_
    -- bit `j` is bit `j % 4` of digit `j / 4`
    have hd := congrArg (fun n => n.testBit (j % 4)) (hnibble (j / 4) (by omega))
    rw [show (16 : Nat) = 2 ^ 4 from rfl] at hd
    simp only [testBit_mod_two_pow, testBit_shiftRight,
      mod_lt j (by decide : 0 < 4), decide_true, Bool.true_and, div_add_mod] at hd
    exact hd
  exact congrArg BlobHash.mk hbits

theorem BlobStore.pathFor_injective (store : BlobStore) : Function.Injective store.pathFor := by
  intro a b h
  have hnames := append_cancel_left h
  simp only [cons.injEq, Component.normal.injEq] at hnames
  exact BlobHash.toHex_injective hnames.2.2.2.1

/-! ## Integrity -/

namespace BlobStore

variable (store : BlobStore)

/-- What `get` returns hashes to the name it was asked for. -/
def GetVerifies (dir : BlobDir) : Prop :=
  ∀ hash bytes, store.get dir hash = .ok bytes → store.blake3 bytes = hash

/-- The byte strings a history deals with: those put, and those readable at the start. -/
def InPlay (puts : List (Option String × Bytes)) (dir : BlobDir) : Set Bytes :=
  {bytes | (∃ ioErr, (ioErr, bytes) ∈ puts) ∨ ∃ hash, store.get dir hash = .ok bytes}

/-- After any `put` calls on byte strings without hash collisions, each hash that was returned
reads back as the bytes that were put. -/
def PutsReadBack (dir : BlobDir) : Prop :=
  ∀ before ioErr bytes after hash st,
    Set.InjOn store.blake3 (store.InPlay (before ++ (ioErr, bytes) :: after) dir) →
    (store.put ioErr bytes (store.putAll before dir)).1 = .ok (hash, st) →
    store.get (store.putAll (before ++ (ioErr, bytes) :: after) dir) hash = .ok bytes

/-- Both: `get` never returns foreign bytes, and what was put reads back. -/
def BlobIntegrity (dir : BlobDir) : Prop := store.GetVerifies dir ∧ store.PutsReadBack dir

/-- A file that decodes under the name of `hash` has that hash, and one that has a zstd flag but
does not decode is not under the hash of any byte string. -/
def IntactFile (hash : BlobHash) : Bytes → Prop
  | [] => True
  | flag :: payload =>
    if flag = flagRaw then store.blake3 payload = hash
    else if flag = flagZstd then
      match store.zstdDecode payload with
      | some bytes => store.blake3 bytes = hash
      | none => ∀ bytes, store.blake3 bytes ≠ hash
    else True

/-- Every file under the name of a hash is intact. -/
def Intact (dir : BlobDir) : Prop :=
  ∀ hash file, dir (store.pathFor hash) = some file → store.IntactFile hash file

variable {store} {dir : BlobDir} {hash : BlobHash} {file bytes : Bytes} {path : PathBuf}
  {ioErr : Option String} {st : BlobStat} {puts : List (Option String × Bytes)}

theorem get_eq_of_file (hfile : dir (store.pathFor hash) = some file) :
    store.get dir hash = store.decodeFile (store.pathFor hash) file := by
  simp [get, hfile]

theorem file_of_get (hget : store.get dir hash = .ok bytes) :
    ∃ file, dir (store.pathFor hash) = some file ∧
      store.decodeFile (store.pathFor hash) file = .ok bytes := by
  unfold get at hget
  split at hget
  · cases hget
  · rename_i file hfile
    exact ⟨file, hfile, hget⟩

theorem decodeFile_encodeFile : store.decodeFile path (store.encodeFile bytes) = .ok bytes := by
  unfold encodeFile
  split
  · simp [decodeFile, store.decode_encode]
  · simp [decodeFile]

theorem intactFile_encodeFile : store.IntactFile (store.blake3 bytes) (store.encodeFile bytes) := by
  unfold encodeFile
  split
  · simp [IntactFile, store.decode_encode]
  · simp [IntactFile]

theorem IntactFile.verifies (hintact : store.IntactFile hash file)
    (hdecode : store.decodeFile path file = .ok bytes) : store.blake3 bytes = hash := by
  cases file with
  | nil => cases hdecode
  | cons flag payload =>
    simp only [IntactFile, decodeFile] at hintact hdecode
    split at hdecode
    · rename_i hraw
      cases hdecode
      simpa [hraw] using hintact
    split at hdecode
    · rename_i hzstd
      split at hdecode
      · rename_i b hb
        cases hdecode
        simpa [hzstd, hb] using hintact
      · cases hdecode
    · cases hdecode

theorem IntactFile.decodes (hintact : store.IntactFile (store.blake3 bytes) file)
    (hstat : fileStat path file = .ok st) : ∃ b, store.decodeFile path file = .ok b := by
  cases file with
  | nil => cases hstat
  | cons flag payload =>
    simp only [IntactFile, fileStat, decodeFile] at hintact hstat ⊢
    split
    · exact ⟨payload, rfl⟩
    rename_i hraw
    rw [if_neg hraw] at hstat hintact
    split
    · rename_i hzstd
      rw [if_pos hzstd] at hintact
      split
      · exact ⟨_, rfl⟩
      · rename_i hnone
        rw [hnone] at hintact
        exact absurd rfl (hintact bytes)
    · rename_i hzstd
      rw [if_neg hzstd] at hstat
      cases hstat

theorem Intact.getVerifies (hintact : store.Intact dir) : store.GetVerifies dir := by
  intro hash bytes hget
  obtain ⟨file, hfile, hdecode⟩ := file_of_get hget
  exact (hintact hash file hfile).verifies hdecode

/-! ## The store's own operations -/

theorem put_of_file (hfile : dir (store.pathFor (store.blake3 bytes)) = some file) :
    store.put ioErr bytes dir =
      ((fileStat (store.pathFor (store.blake3 bytes)) file).map
        fun st => (store.blake3 bytes, st), dir) := by
  simp [BlobStore.put, hfile]

theorem put_of_absent (hnone : dir (store.pathFor (store.blake3 bytes)) = none) :
    store.put none bytes dir =
      (.ok (store.blake3 bytes,
        ⟨(store.encodeFile bytes).length, decide (compressMinBytes ≤ bytes.length)⟩),
        update dir (store.pathFor (store.blake3 bytes))
          (some (store.encodeFile bytes))) := by
  simp [BlobStore.put, hnone]

theorem put_failing {e : String} (hnone : dir (store.pathFor (store.blake3 bytes)) = none) :
    store.put (some e) bytes dir = (.error (.io e), dir) := by
  simp [BlobStore.put, hnone]

theorem put_snd (store : BlobStore) (ioErr : Option String) (bytes : Bytes) (dir : BlobDir) :
    (store.put ioErr bytes dir).2 = dir ∨
      (dir (store.pathFor (store.blake3 bytes)) = none ∧ (store.put ioErr bytes dir).2 =
        update dir (store.pathFor (store.blake3 bytes))
          (some (store.encodeFile bytes))) := by
  cases hfile : dir (store.pathFor (store.blake3 bytes)) with
  | some file => exact .inl (by rw [put_of_file hfile])
  | none =>
    cases ioErr with
    | some e => exact .inl (by rw [put_failing hfile])
    | none => exact .inr ⟨rfl, by rw [put_of_absent hfile]⟩

theorem put_keeps (hfile : dir path = some file) :
    (store.put ioErr bytes dir).2 path = some file := by
  rcases put_snd store ioErr bytes dir with heq | ⟨hnone, heq⟩
  · rw [heq, hfile]
  · rw [heq, update_of_ne _ _ _, hfile]
    rintro rfl
    simp [hnone] at hfile

theorem contains_put (hthere : store.contains dir hash = true) :
    store.contains (store.put ioErr bytes dir).2 hash = true := by
  obtain ⟨file, hfile⟩ := Option.isSome_iff_exists.mp hthere
  exact Option.isSome_iff_exists.mpr ⟨file, put_keeps hfile⟩

/-- After a successful `put` there is a file under the hash: the one that was there, or its own. -/
theorem file_of_put_ok (hput : (store.put ioErr bytes dir).1 = .ok (hash, st)) :
    hash = store.blake3 bytes ∧ (store.put ioErr bytes dir).2 (store.pathFor hash) =
      some ((dir (store.pathFor hash)).getD (store.encodeFile bytes)) ∧ ∀ file,
        dir (store.pathFor hash) = some file → fileStat (store.pathFor hash) file = .ok st := by
  cases hfile : dir (store.pathFor (store.blake3 bytes)) with
  | some file =>
    rw [put_of_file hfile] at hput ⊢
    cases hstat : fileStat (store.pathFor (store.blake3 bytes)) file with
    | error e =>
      rw [hstat] at hput
      cases hput
    | ok st' =>
      rw [hstat] at hput
      cases hput
      simp [hfile, hstat]
  | none =>
    cases ioErr with
    | some e =>
      rw [put_failing hfile] at hput
      cases hput
    | none =>
      rw [put_of_absent hfile] at hput ⊢
      cases hput
      simp [hfile]

theorem contains_of_put_ok (hput : (store.put ioErr bytes dir).1 = .ok (hash, st)) :
    store.contains (store.put ioErr bytes dir).2 hash = true := by
  simp [contains, (file_of_put_ok hput).2.1]

theorem contains_delete {hash' : BlobHash} (hne : hash' ≠ hash)
    (hthere : store.contains dir hash' = true) :
    store.contains (store.delete dir hash) hash' = true := by
  have hpath := store.pathFor_injective.ne hne
  rw [contains, delete, update_of_ne hpath]
  exact hthere

theorem get_of_put {b : Bytes} (hget : store.get (store.put ioErr bytes dir).2 hash = .ok b) :
    store.get dir hash = .ok b ∨ (hash = store.blake3 bytes ∧ b = bytes) := by
  rcases put_snd store ioErr bytes dir with heq | ⟨hnone, heq⟩
  · rw [heq] at hget
    exact .inl hget
  by_cases hhash : hash = store.blake3 bytes
  · subst hhash
    obtain ⟨file, hfile, hdecode⟩ := file_of_get hget
    rw [heq, update_self] at hfile
    cases hfile
    rw [decodeFile_encodeFile] at hdecode
    cases hdecode
    exact .inr ⟨rfl, rfl⟩
  · have hpath := store.pathFor_injective.ne hhash
    rw [get, heq, update_of_ne hpath] at hget
    exact .inl hget

theorem Intact.put (hintact : store.Intact dir) (ioErr : Option String) (bytes : Bytes) :
    store.Intact (store.put ioErr bytes dir).2 := by
  rcases put_snd store ioErr bytes dir with heq | ⟨-, heq⟩
  · rw [heq]
    exact hintact
  intro hash file hfile
  rw [heq] at hfile
  by_cases hhash : hash = store.blake3 bytes
  · subst hhash
    rw [update_self] at hfile
    cases hfile
    exact intactFile_encodeFile
  · rw [update_of_ne (store.pathFor_injective.ne hhash)] at hfile
    exact hintact hash file hfile

theorem putAll_cons (store : BlobStore) (p : Option String × Bytes)
    (puts : List (Option String × Bytes)) (dir : BlobDir) :
    store.putAll (p :: puts) dir = store.putAll puts (store.put p.1 p.2 dir).2 := rfl

theorem putAll_append (store : BlobStore) (before after : List (Option String × Bytes))
    (dir : BlobDir) :
    store.putAll (before ++ after) dir = store.putAll after (store.putAll before dir) :=
  foldl_append

theorem Intact.putAll (hintact : store.Intact dir) (puts : List (Option String × Bytes)) :
    store.Intact (store.putAll puts dir) := by
  induction puts generalizing dir with
  | nil => exact hintact
  | cons p puts ih => exact ih (hintact.put p.1 p.2)

theorem putAll_keeps (hfile : dir path = some file) : store.putAll puts dir path = some file := by
  induction puts generalizing dir with
  | nil => exact hfile
  | cons p puts ih => exact ih (put_keeps hfile)

theorem mem_inPlay_of_get (hget : store.get (store.putAll puts dir) hash = .ok bytes) :
    bytes ∈ store.InPlay puts dir := by
  induction puts generalizing dir with
  | nil => exact .inr ⟨hash, hget⟩
  | cons p puts ih =>
    rcases ih hget with ⟨e, he⟩ | ⟨k, hk⟩
    · exact .inl ⟨e, mem_cons_of_mem _ he⟩
    · rcases get_of_put hk with hk | ⟨-, rfl⟩
      · exact .inr ⟨k, hk⟩
      · exact .inl ⟨p.1, mem_cons_self⟩

/-- After a successful `put` the file under the hash decodes to the bytes, if no other content in
the directory has their hash. -/
theorem Intact.get_of_put_ok (hintact : store.Intact dir)
    (hput : (store.put ioErr bytes dir).1 = .ok (hash, st))
    (hunique : ∀ b, store.get dir hash = .ok b → store.blake3 b = store.blake3 bytes → b = bytes) :
    store.get (store.put ioErr bytes dir).2 hash = .ok bytes := by
  obtain ⟨rfl, hthere, hstat⟩ := file_of_put_ok hput
  rw [get_eq_of_file hthere]
  cases hfile : dir (store.pathFor (store.blake3 bytes)) with
  | some file =>
    -- deduplicated: the file that is there decodes, to bytes of the same hash
    obtain ⟨b, hb⟩ := (hintact _ file hfile).decodes (hstat file hfile)
    have hget : store.get dir (store.blake3 bytes) = .ok b := by
      rw [get_eq_of_file hfile, hb]
    rw [Option.getD_some, hb, hunique b hget (hintact.getVerifies _ b hget)]
  | none => exact decodeFile_encodeFile

theorem Intact.putsReadBack (hintact : store.Intact dir) : store.PutsReadBack dir := by
  intro before ioErr bytes after hash st hinj hput
  have hhere := hintact.putAll before
  have hread : store.get (store.put ioErr bytes (store.putAll before dir)).2 hash = .ok bytes := by
    refine hhere.get_of_put_ok hput fun b hb hsame => ?_
    refine hinj ?_ (.inl ⟨ioErr, by simp⟩) hsame
    rcases mem_inPlay_of_get hb with ⟨e, he⟩ | hstart
    · exact .inl ⟨e, mem_append_left _ he⟩
    · exact .inr hstart
  obtain ⟨file, hfile, hdecode⟩ := file_of_get hread
  rw [putAll_append, putAll_cons, get_eq_of_file (putAll_keeps hfile), hdecode]

/-- Where `get` verifies, readable contents have different hashes, and none has the hash of bytes
that cannot be read back. -/
theorem injOn_inPlay_of_unreadable (hverify : store.GetVerifies dir)
    (hunreadable : ∀ b, store.get dir (store.blake3 bytes) ≠ .ok b) :
    Set.InjOn store.blake3 (store.InPlay [(ioErr, bytes)] dir) := by
  have hplay : ∀ b ∈ store.InPlay [(ioErr, bytes)] dir,
      b = bytes ∨ store.get dir (store.blake3 b) = .ok b := by
    rintro b (⟨e, he⟩ | ⟨k, hk⟩)
    · exact .inl (Prod.mk.inj (mem_singleton.mp he)).2
    · exact .inr (by rw [hverify k b hk]; exact hk)
  intro b hb c hc hsame
  rcases hplay b hb with rfl | hgb
  · rcases hplay c hc with rfl | hgc
    · rfl
    · exact absurd (hsame ▸ hgc) (hunreadable c)
  · rcases hplay c hc with rfl | hgc
    · exact absurd (hsame ▸ hgb) (hunreadable b)
    · rw [hsame, hgc] at hgb
      exact (Except.ok.inj hgb).symm

/-- The store can be trusted on a directory exactly when every file in it is intact. -/
theorem blobIntegrity_iff (store : BlobStore) (dir : BlobDir) :
    store.BlobIntegrity dir ↔ store.Intact dir := by
  refine ⟨fun ⟨hverify, hback⟩ hash file hfile => ?_, fun h => ⟨h.getVerifies, h.putsReadBack⟩⟩
  have hget : store.get dir hash = _ := get_eq_of_file hfile
  cases file with
  | nil => trivial
  | cons flag payload =>
    simp only [decodeFile] at hget
    simp only [IntactFile]
    split
    · rename_i hraw
      rw [if_pos hraw] at hget
      exact hverify hash payload hget
    rename_i hraw
    rw [if_neg hraw] at hget
    split
    · rename_i hzstd
      rw [if_pos hzstd] at hget
      split
      · rename_i b hb
        rw [hb] at hget
        exact hverify hash b hget
      -- putting bytes with this hash is deduplicated against a file that does not decode
      rename_i hnone
      rw [hnone] at hget
      rintro bytes rfl
      have hput : (store.put none bytes dir).1 =
          .ok (store.blake3 bytes, ⟨payload.length + 1, true⟩) := by
        rw [put_of_file hfile]
        simp [fileStat, hzstd, Except.map]
      have hdir : (store.put none bytes dir).2 = dir := by rw [put_of_file hfile]
      have hinj : Set.InjOn store.blake3 (store.InPlay ([] ++ [(none, bytes)]) dir) :=
        injOn_inPlay_of_unreadable hverify (fun b hb => by rw [hget] at hb; cases hb)
      have hread := hback [] none bytes [] _ _ hinj hput
      rw [nil_append, putAll_cons, hdir] at hread
      exact absurd (hread.symm.trans hget) (by simp)
    · trivial

/-- A store with a toy hash and no compression. -/
def sample : BlobStore where
  root := PathBuf.ofString "/store"
  blake3 := sampleHash
  zstdEncode := id
  zstdDecode := some
  decode_encode := fun _ => rfl

/-- One byte of the blob of `[1]` has flipped on disk: `get` returns `[9]` under its hash. -/
theorem corrupted_blob_returned :
    ¬ sample.BlobIntegrity
      (update (fun _ => none) (sample.pathFor (sampleHash [1])) (some [0, 9])) := by
  intro hintegrity
  have hget : sample.get (update (fun _ => none) (sample.pathFor (sampleHash [1]))
      (some [0, 9])) (sampleHash [1]) = .ok [9] := by
    rfl
  exact absurd (hintegrity.1 _ _ hget) (by decide)

end BlobStore

end ShitUndo
