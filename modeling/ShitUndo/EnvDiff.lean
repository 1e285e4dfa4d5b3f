import ShitUndo.Orchestrator
import ShitUndo.Text
import ShitUndo.Lib.SortedMap
import ShitUndo.Lib.ShellReader
import Mathlib.Data.List.Infix

/-!
# Undoing changes of the environment

The shell reports its environment before and after a command as blocks of `KEY=VALUE` bytes
(`env.rs`). Their difference is journaled and planned, and the env executor (`executors/env.rs`)
writes a script of `export` and `unset` lines for the shell to evaluate.

`envUndo_restores` follows a pair of environments through all of it: the script, read by the shell,
gives back every variable that changed, except ignored ones, which it does not touch, and redacted
ones, whose values are gone.

The content hash is a parameter, and so is what `from_utf8_lossy` makes of malformed bytes.
-/

namespace ShitUndo

open List ShellReader SortedMap

/-! ## Blocks -/

/-- An environment. -/
abbrev EnvMap := SortedMap String String

/-- `str::as_bytes`. -/
def utf8 (s : String) : Bytes := s.toList.flatMap String.utf8EncodeChar

def fromUtf8Lossy (malformed : Bytes → String) (bytes : Bytes) : String :=
  (String.fromUTF8? bytes.toByteArray).getD (malformed bytes)

/-- `b'='`. -/
def equalsByte : UInt8 := 61

/-- One `KEY=VALUE`. -/
def encodeEntry (e : String × String) : Bytes := utf8 e.1 ++ equalsByte :: utf8 e.2

/-- `canonicalize`: entries in key order, joined by NUL. -/
def canonicalize (env : EnvMap) : Bytes := [0].intercalate (env.entries.map encodeEntry)

/-- One turn of the loop of `parse_block`. -/
def parseEntry (malformed : Bytes → String) (chunk : Bytes) : Option (String × String) :=
  if chunk = [] then none
  else if equalsByte ∉ chunk then none
  else some (fromUtf8Lossy malformed (chunk.takeWhile (· != equalsByte)),
    fromUtf8Lossy malformed ((chunk.dropWhile (· != equalsByte)).drop 1))

def parseBlock (malformed : Bytes → String) (block : Bytes) : EnvMap :=
  .ofList ((block.splitOn 0).filterMap (parseEntry malformed))

/-! ## The difference -/

structure EnvFilter where
  ignore : List String
  ignorePrefixes : List String
  redactSubstrings : List String
  trackAll : Bool
deriving DecidableEq, Repr

def defaultRedactSubstrings : List String := ["TOKEN", "SECRET", "PASSWORD", "API_KEY", "APIKEY"]

def EnvFilter.default : EnvFilter where
  ignore := ["_", "OLDPWD", "SHLVL", "RANDOM", "LINENO", "PROMPT_COMMAND", "STARSHIP_SESSION_KEY",
    "STARSHIP_SHELL", "STARSHIP_START_TIME", "PWD", "SECONDS"]
  ignorePrefixes := ["STARSHIP_"]
  redactSubstrings := defaultRedactSubstrings
  trackAll := false

def EnvFilter.isIgnored (filter : EnvFilter) (name : String) : Bool :=
  !filter.trackAll && (filter.ignore.contains name
    || filter.ignorePrefixes.any fun p => p.toList.isPrefixOf name.toList)

def EnvFilter.isRedacted (filter : EnvFilter) (name : String) : Bool :=
  filter.redactSubstrings.any fun s => decide (s.toList <:+: asciiUpper name.toList)

/-- The marker of a redacted value begins with this. -/
def redactedPrefix : String := "<redacted:"

/-- `redact_value`: the first four bytes of the hash, in hexadecimal. -/
def redactValue (blake3 : Bytes → BlobHash) (value : String) : String :=
  redactedPrefix ++ String.ofList ((blake3 (utf8 value)).toHex.toList.take 8) ++ ">"

structure EnvDiff where
  added : EnvMap
  removed : EnvMap
  modified : SortedMap String (String × String)

section Diff

variable (blake3 : Bytes → BlobHash) (filter : EnvFilter)

/-- The closure `project` of `diff_env_maps`. -/
def projectValue (name value : String) : String :=
  if filter.isRedacted name then redactValue blake3 value else value

def diffEnvMaps (pre post : EnvMap) : EnvDiff where
  added := post.filterMap fun name value =>
    if filter.isIgnored name then none
    else if pre.get name = none then some (projectValue blake3 filter name value)
    else none
  removed := pre.filterMap fun name value =>
    if filter.isIgnored name then none
    else if post.get name = none then some (projectValue blake3 filter name value)
    else none
  modified := post.filterMap fun name value =>
    if filter.isIgnored name then none
    else match pre.get name with
      | none => none
      | some prev =>
        if prev ≠ value then
          some (projectValue blake3 filter name prev, projectValue blake3 filter name value)
        else none

def diffEnvBlocks (malformed : Bytes → String) (pre post : Bytes) : EnvDiff :=
  diffEnvMaps blake3 filter (parseBlock malformed pre) (parseBlock malformed post)

end Diff

/-- The journaled difference. -/
def EnvDiff.kind (diff : EnvDiff) : CaptureEventKind :=
  .envDiff diff.added.entries diff.removed.entries diff.modified.entries

/-! ## The executor -/

/-- `is_valid_name`: `[A-Za-z_][A-Za-z0-9_]*`. -/
def isValidName (name : String) : Bool :=
  match name.toList with
  | [] => false
  | c :: rest => (c.isAlpha || c == '_') && rest.all isWordChar

def posixSingleQuote (value : String) : String :=
  "'" ++ String.ofList (value.toList.flatMap fun c => if c = '\'' then "'\\''".toList else [c])
    ++ "'"

def appendLine (buf line : String) : String :=
  (if buf ≠ "" ∧ buf.toList.getLast? ≠ some '\n' then buf ++ "\n" else buf) ++ line ++ "\n"

/-- The line for an op, or why there is none. -/
def envLine : InverseOp → Except ExecutionOutcome String
  | .setEnv name value =>
    if !isValidName name then .error (.failed ("invalid env var name: " ++ debugText name))
    else if redactedPrefix.toList.isPrefixOf value.toList then
      .ok ("unset " ++ name ++ "  # original value was redacted at capture")
    else .ok ("export " ++ name ++ "=" ++ posixSingleQuote value)
  | .unsetEnv name =>
    if !isValidName name then .error (.failed ("invalid env var name: " ++ debugText name))
    else .ok ("unset " ++ name)
  | _ => .error (.skipped "env executor reached non-env op")

/-- `EnvExecutor::execute`, with the text in its sink. -/
def executeEnv (op : InverseOp) (dryRun : Bool) (_policy : ConflictPolicy) (sink : String) :
    ExecutionOutcome × String :=
  match envLine op with
  | .error outcome => (outcome, sink)
  | .ok line => if dryRun then (.wouldApply, sink) else (.applied, appendLine sink line)

/-- Plans are run with the env executor alone. -/
def envRuntime (probe : StateProbe) : Runtime String where
  probe := fun _ => probe
  execute := executeEnv

/-! ## What a shell makes of the script -/

/-- The variables of a shell. -/
abbrev ShellEnv := String → Option String

/-- One argument of `export`: `NAME=VALUE`, or a name whose value stays. -/
def exportArg (env : ShellEnv) (arg : List Char) : ShellEnv :=
  if '=' ∈ arg then
    Function.update env (String.ofList (arg.takeWhile (· != '=')))
      (some (String.ofList ((arg.dropWhile (· != '=')).drop 1)))
  else env

/-- One argument of `unset`. -/
def unsetArg (env : ShellEnv) (arg : List Char) : ShellEnv :=
  Function.update env (String.ofList arg) none

/-- The two builtins. Any other command fails. -/
def envBuiltin (words : List (List Char)) (env : ShellEnv) : Bool × ShellEnv :=
  match words with
  | [] => (true, env)
  | name :: args =>
    if name = "export".toList then (true, args.foldl exportArg env)
    else if name = "unset".toList then (true, args.foldl unsetArg env)
    else (false, env)

/-- Evaluate a script. -/
def evalEnvScript (script : String) (env : ShellEnv) : Option ShellEnv :=
  (commands posix script.toList).map fun cmds =>
    (exec envBuiltin true cmds env).2

/-! ## Blocks parse back -/

theorem toNat_of_mem_utf8EncodeChar {b : UInt8} {c : Char} (hb : b.toNat < 128)
    (h : b ∈ String.utf8EncodeChar c) : c.toNat = b.toNat := by
  have hmod : ∀ n, n < 256 → (UInt8.ofNat n).toNat = n := by
    intro n hn
    exact Nat.mod_eq_of_lt hn
  have hc : c.toNat = c.val.toNat := rfl
  rw [String.utf8EncodeChar] at h
  split_ifs at h with h₁ h₂ h₃ <;> simp only [mem_cons, not_mem_nil, or_false] at h
  · rw [h, hmod _ (by omega), hc]
  all_goals
    rcases h with rfl | h
    · rw [hmod _ (by omega)] at hb
      omega
  · rw [h, hmod _ (by omega)] at hb
    omega
  · rcases h with rfl | rfl <;> rw [hmod _ (by omega)] at hb <;> omega
  · rcases h with rfl | rfl | rfl <;> rw [hmod _ (by omega)] at hb <;> omega

theorem mem_utf8 {b : UInt8} {s : String} (hb : b.toNat < 128) (h : b ∈ utf8 s) :
    Char.ofNat b.toNat ∈ s.toList := by
  obtain ⟨c, hc, hmem⟩ := mem_flatMap.mp h
  rw [← toNat_of_mem_utf8EncodeChar hb hmem, Char.ofNat_toNat]
  exact hc

theorem fromUtf8Lossy_utf8 (malformed : Bytes → String) (s : String) :
    fromUtf8Lossy malformed (utf8 s) = s := by
  have hbytes : (utf8 s).toByteArray = s.toByteArray := String.utf8Encode_toList
  rw [fromUtf8Lossy, hbytes, String.fromUTF8?, dif_pos s.isValidUTF8]
  rfl

/-- What the shell can hold: a name, and a value that is no marker and has no NUL in it. -/
structure ValidEntry (name value : String) : Prop where
  isValidName : isValidName name = true
  noNul : Char.ofNat 0 ∉ value.toList
  unmarked : redactedPrefix.toList.isPrefixOf value.toList = false

/-- An environment a shell can hold. -/
def ValidEnv (env : EnvMap) : Prop :=
  ∀ name value, env.get name = some value → ValidEntry name value

variable {name : String}

theorem isWordChar_of_isValidName (h : isValidName name = true) :
    name.toList ≠ [] ∧ ∀ c ∈ name.toList, isWordChar c = true := by
  unfold isValidName at h
  cases hname : name.toList with
  | nil => simp [hname] at h
  | cons c rest =>
    simp only [hname, Bool.and_eq_true, all_eq_true] at h
    refine ⟨cons_ne_nil _ _, fun d hd => ?_⟩
    rcases mem_cons.mp hd with rfl | hd
    · simp only [isWordChar, Char.isAlphanum]
      rcases Bool.or_eq_true _ _ ▸ h.1 with hc | hc <;> simp [hc]
    · exact h.2 d hd

theorem not_mem_utf8_name (h : isValidName name = true) {b : UInt8} (hb : b.toNat < 128)
    (hword : isWordChar (Char.ofNat b.toNat) = false) : b ∉ utf8 name := by
  intro hmem
  have hc := (isWordChar_of_isValidName h).2 _ (mem_utf8 hb hmem)
  rw [hword] at hc
  cases hc

theorem parseEntry_encodeEntry (malformed : Bytes → String) {value : String}
    (h : isValidName name = true) :
    parseEntry malformed (encodeEntry (name, value)) = some (name, value) := by
  have hne : ∀ b ∈ utf8 name, (b != equalsByte) = true := by
    intro b hb
    have hnot := not_mem_utf8_name h (b := equalsByte) (by decide) (by decide)
    exact bne_iff_ne.mpr fun heq => hnot (heq ▸ hb)
  unfold parseEntry encodeEntry
  rw [if_neg (by simp), if_neg (by simp), takeWhile_append_of_pos hne,
    dropWhile_append_of_pos hne, takeWhile_cons_of_neg (by simp),
    dropWhile_cons_of_neg (by simp), append_nil, drop_one, tail_cons,
    fromUtf8Lossy_utf8, fromUtf8Lossy_utf8]

/-- **Blocks parse back.** -/
theorem parseBlock_canonicalize (malformed : Bytes → String) {env : EnvMap} (h : ValidEnv env) :
    parseBlock malformed (canonicalize env) = env := by
  have hvalid : ∀ e ∈ env.entries, ValidEntry e.1 e.2 := fun e he =>
    h e.1 e.2 (get_eq_some_iff.mpr he)
  have hsplit : ((canonicalize env).splitOn 0).filterMap (parseEntry malformed) = env.entries := by
    by_cases hempty : env.entries = []
    · rw [canonicalize, hempty]
      rfl
    have hzero : ∀ l ∈ env.entries.map encodeEntry, (0 : UInt8) ∉ l := by
      intro l hl hmem
      obtain ⟨e, he, rfl⟩ := mem_map.mp hl
      rcases mem_append.mp hmem with hname | hvalue
      · exact not_mem_utf8_name (hvalid e he).isValidName (by decide) (by decide) hname
      · rcases mem_cons.mp hvalue with heq | hvalue
        · exact absurd heq (by decide)
        · exact (hvalid e he).noNul (mem_utf8 (by decide) hvalue)
    rw [canonicalize, splitOn_intercalate 0 hzero (by simpa using hempty), filterMap_map]
    refine (filterMap_congr fun e he => ?_).trans filterMap_some
    exact parseEntry_encodeEntry malformed (hvalid e he).isValidName
  rw [parseBlock, hsplit, ofList_entries]

/-! ## Lines and commands -/

/-- The line of an op with its end, nothing if there is none. -/
def lineText (op : InverseOp) : List Char :=
  match envLine op with
  | .error _ => []
  | .ok line => line.toList ++ ['\n']

/-- The words of the line of an op. -/
def envWords : InverseOp → List (List Char)
  | .setEnv name value =>
    if redactedPrefix.toList.isPrefixOf value.toList then ["unset".toList, name.toList]
    else ["export".toList, name.toList ++ '=' :: value.toList]
  | .unsetEnv name => ["unset".toList, name.toList]
  | _ => []

/-- The variable an op of the env tier is about. -/
def envName : InverseOp → Option String
  | .setEnv name _ | .unsetEnv name => some name
  | _ => none

variable {op : InverseOp}

theorem envName_eq_some (h : envName op = some name) :
    (∃ value, op = .setEnv name value) ∨ op = .unsetEnv name := by
  cases op with
  | setEnv n value => exact .inl ⟨value, by rw [Option.some.inj h]⟩
  | unsetEnv n => exact .inr (by rw [Option.some.inj h])
  | _ => cases h

/-- What an op sets its variable to. -/
def settles : InverseOp → Option String
  | .setEnv _ value => if redactedPrefix.toList.isPrefixOf value.toList then none else some value
  | _ => none

theorem isOrdinary_of_isWordChar {c : Char} (h : isWordChar c = true) : isOrdinary c = true := by
  -- none of the special characters is a letter, a digit or an underscore
  have hspecial : ∀ d ∈ [' ', '\t', '\n', '\'', '\\', ';', '&', '|', '<', '>', '"', '$', '\x60',
      '(', ')', '*', '?', '[', ']', '\x7b', '\x7d', '~', '^', '#'],
      isWordChar d = false := forall_mem_of_all (by decide)
  have hne : ∀ d, isWordChar d = false → c ≠ d := by
    intro d hd heq
    rw [heq, hd] at h
    cases h
  simp [isOrdinary, isBlank, isOperatorChar, needsExpansion, hne, hspecial]

theorem isPlainWord_of_isValidName (h : isValidName name = true) :
    isPlainWord name.toList = true := by
  obtain ⟨hne, hword⟩ := isWordChar_of_isValidName h
  cases hname : name.toList with
  | nil => exact absurd hname hne
  | cons c rest =>
    rw [hname] at hword
    have hc := hword c mem_cons_self
    have hequals : c ≠ '=' := fun heq => absurd hc (by rw [heq]; decide)
    simp only [isPlainWord, Bool.and_eq_true, bne_iff_ne, List.all_eq_true]
    exact ⟨hequals, fun d hd => isOrdinary_of_isWordChar (hword d hd)⟩

theorem toList_posixSingleQuote (value : String) :
    (posixSingleQuote value).toList = quote value.toList := by
  simp [posixSingleQuote, quote]

open ShellReader (Reads IsLine Command newline) in
theorem isLine_lineText (hname : isValidName name = true) (hop : envName op = some name) :
    IsLine posix (lineText op) [.simple (envWords op)] := by
  have hplain := reads_plainWord (d := posix) (isPlainWord_of_isValidName hname)
  have hunset : Reads posix .gap "unset ".toList [.word "unset".toList] .gap := rfl
  have hexport : Reads posix .gap "export ".toList [.word "export".toList] .gap := rfl
  rcases envName_eq_some hop with ⟨value, rfl⟩ | rfl
  · by_cases hmark : redactedPrefix.toList.isPrefixOf value.toList = true
    · refine ⟨[.word "unset".toList, .word name.toList], ?_, by simp [envWords, hmark]; rfl⟩
      have hnote : Reads posix (.bare name.toList)
          ("  # original value was redacted at capture\n".toList)
          [.word name.toList, .op newline] .gap := rfl
      have hall := (hunset.append hplain).append hnote
      simpa [lineText, envLine, hname, hmark] using hall
    · refine ⟨[.word "export".toList, .word (name.toList ++ '=' :: value.toList)], ?_, ?_⟩
      · have hequals : Reads posix (.bare name.toList) ['='] []
            (.bare (name.toList ++ ['='])) := rfl
        have hquote := reads_quote (w := name.toList ++ ['=']) value.toList
        have hend : Reads posix (.bare (name.toList ++ ['='] ++ value.toList)) ['\n']
            [.word (name.toList ++ ['='] ++ value.toList), .op newline] .gap := rfl
        have hall := (((hexport.append hplain).append hequals).append hquote).append hend
        simpa [lineText, envLine, hname, hmark, toList_posixSingleQuote] using hall
      · simp [envWords, hmark]
        rfl
  · refine ⟨[.word "unset".toList, .word name.toList], ?_, rfl⟩
    have hend : Reads posix (.bare name.toList) ['\n'] [.word name.toList, .op newline] .gap := rfl
    have hall := (hunset.append hplain).append hend
    simpa [lineText, envLine, hname] using hall

theorem envBuiltin_envWords (hname : isValidName name = true) (hop : envName op = some name)
    (env : ShellEnv) :
    envBuiltin (envWords op) env = (true, Function.update env name (settles op)) := by
  have hunset : envBuiltin ["unset".toList, name.toList] env =
      (true, Function.update env name none) := by
    simp [envBuiltin, unsetArg]
  rcases envName_eq_some hop with ⟨value, rfl⟩ | rfl
  · by_cases hmark : redactedPrefix.toList.isPrefixOf value.toList = true
    · simpa only [envWords, settles, if_pos hmark] using hunset
    have hne : ∀ c ∈ name.toList, (c != '=') = true := by
      intro c hc
      refine bne_iff_ne.mpr fun heq => ?_
      exact absurd ((isWordChar_of_isValidName hname).2 c hc) (by rw [heq]; decide)
    simp [envWords, settles, hmark, envBuiltin, exportArg, takeWhile_append_of_pos hne,
      dropWhile_append_of_pos hne]
  · exact hunset

/-! ## Running the nodes -/

/-- The nodes are env ops, each on a variable with a valid name, and each sets its variable to what
`target` says. -/
def SetsTo (target : ShellEnv) (nodes : List PlanNode) : Prop :=
  ∀ node ∈ nodes, node.conflict = none ∧
    ∃ name, isValidName name = true ∧ envName node.op = some name ∧ settles node.op = target name

variable {target : ShellEnv} {nodes : List PlanNode} {sink : String}

/-- The sink ends with a whole line. -/
def SinkClean (sink : String) : Prop := sink = "" ∨ sink.toList.getLast? = some '\n'

theorem toList_appendLine (h : SinkClean sink) (line : String) :
    (appendLine sink line).toList = sink.toList ++ (line.toList ++ ['\n']) := by
  have hclean : ¬ (sink ≠ "" ∧ sink.toList.getLast? ≠ some '\n') := by
    rintro ⟨hne, hlast⟩
    exact h.elim hne hlast
  simp [appendLine, hclean]

theorem envLine_of_envName (hname : isValidName name = true) (hop : envName op = some name) :
    ∃ line, envLine op = .ok line := by
  rcases envName_eq_some hop with ⟨value, rfl⟩ | rfl
  · rw [envLine, hname]
    by_cases hmark : redactedPrefix.toList.isPrefixOf value.toList = true <;> simp [hmark]
  · simp [envLine, hname]

theorem disposition_env {node : PlanNode} (hop : envName node.op = some name)
    (hconflict : node.conflict = none) (filter : PathsFilter) (policy : ConflictPolicy)
    (probe : StateProbe) : disposition filter policy probe node = .dispatch := by
  obtain ⟨op, cohort, conflict⟩ := node
  obtain rfl : conflict = none := hconflict
  rcases envName_eq_some hop with ⟨value, rfl⟩ | rfl
  · cases filter <;> rfl
  · cases filter <;> rfl

/-- **The script of a run**: the lines of its ops, in order. -/
theorem runFrom_env (h : SetsTo target nodes) (probe : StateProbe) (filter : PathsFilter)
    (policy : ConflictPolicy) (i : Nat) (hsink : SinkClean sink) :
    (runFrom (envRuntime probe) filter false policy i nodes sink).2.toList =
      sink.toList ++ nodes.flatMap fun node => lineText node.op := by
  induction nodes generalizing i sink with
  | nil => simp [runFrom]
  | cons node rest ih =>
    obtain ⟨hconflict, name, hname, hop, _⟩ := h node mem_cons_self
    obtain ⟨line, hline⟩ := envLine_of_envName hname hop
    have hexecute : (envRuntime probe).execute node.op false policy sink =
        (.applied, appendLine sink line) := by
      simp [envRuntime, executeEnv, hline]
    have htext := toList_appendLine hsink line
    have hclean : SinkClean (appendLine sink line) := .inr (by rw [htext]; simp)
    have hrest := ih (fun n hn => h n (mem_cons_of_mem _ hn)) (i + 1) hclean
    rw [runFrom, executeOne_of_dispatch (disposition_env hop hconflict filter policy _), hexecute]
    simp only [OutcomeKind.fromOutcome, recordOf, halts, reduceCtorEq, or_self, and_false,
      decide_false, Bool.false_eq_true, if_false]
    rw [hrest, htext, flatMap_cons, lineText, hline, append_assoc]

/-- **What the script does**: it gives every variable an op names its target, and touches no
other. -/
theorem exec_env (h : SetsTo target nodes) (ok : Bool) (env : ShellEnv) :
    (exec envBuiltin ok (nodes.flatMap fun node => [.simple (envWords node.op)]) env).2 =
      fun name =>
        if ∃ node ∈ nodes, envName node.op = some name then target name else env name := by
  induction nodes generalizing ok env with
  | nil => simp [exec]
  | cons node rest ih =>
    obtain ⟨_, name, hname, hop, htarget⟩ := h node mem_cons_self
    have hrest := ih fun n hn => h n (mem_cons_of_mem _ hn)
    rw [flatMap_cons, singleton_append, exec_simple, envBuiltin_envWords hname hop, hrest]
    funext k
    by_cases hk : k = name
    · subst hk
      simp [hop, htarget]
    · have hother : ¬ name = k := fun heq => hk heq.symm
      simp [hop, hother, hk]

theorem evalEnvScript_run (h : SetsTo target nodes) (probe : StateProbe) (filter : PathsFilter)
    (policy : ConflictPolicy) (env : ShellEnv) :
    evalEnvScript (runFrom (envRuntime probe) filter false policy 0 nodes "").2 env =
      some fun name =>
        if ∃ node ∈ nodes, envName node.op = some name then target name else env name := by
  have hlines : ∀ node ∈ nodes, ShellReader.IsLine posix (lineText node.op)
      [.simple (envWords node.op)] := by
    intro node hnode
    obtain ⟨_, name, hname, hop, _⟩ := h node hnode
    exact isLine_lineText hname hop
  rw [evalEnvScript, runFrom_env h probe filter policy 0 (.inl rfl), String.toList_empty,
    nil_append, commands_lines _ _ _ hlines, Option.map_some, exec_env h]

/-! ## The round trip -/

section RoundTrip

variable {blake3 : Bytes → BlobHash} {filter : EnvFilter} {pre post : EnvMap}

/-- The value a variable gets back: none if it is redacted. -/
def restoredValue (filter : EnvFilter) (pre : EnvMap) : ShellEnv := fun name =>
  if filter.isRedacted name then none else pre.get name

theorem settles_setEnv_projectValue {name value : String} (hvalid : ValidEntry name value)
    (hpre : pre.get name = some value) :
    settles (.setEnv name (projectValue blake3 filter name value)) =
      restoredValue filter pre name := by
  unfold projectValue restoredValue
  by_cases hred : filter.isRedacted name = true
  · rw [if_pos hred, if_pos hred, settles, if_pos]
    rw [List.isPrefixOf_iff_prefix, redactValue, String.append_assoc, String.toList_append]
    exact prefix_append _ _
  · rw [if_neg hred, if_neg hred, settles, if_neg (by simp [hvalid.unmarked]), hpre]

theorem setsTo_emitForEnvDiff (hpre : ValidEnv pre) (hpost : ValidEnv post) :
    SetsTo (restoredValue filter pre)
      (emitForEnvDiff (diffEnvMaps blake3 filter pre post).added.entries
        (diffEnvMaps blake3 filter pre post).removed.entries
        (diffEnvMaps blake3 filter pre post).modified.entries) := by
  intro node hnode
  simp only [emitForEnvDiff, mem_append, List.mem_map] at hnode
  rcases hnode with (⟨⟨name, value⟩, he, rfl⟩ | ⟨⟨name, value⟩, he, rfl⟩) |
    ⟨⟨name, before, after⟩, he, rfl⟩
  all_goals
    refine ⟨rfl, name, ?_⟩
    rw [← get_eq_some_iff, diffEnvMaps, get_filterMap, Option.bind_eq_some_iff] at he
    obtain ⟨v, hv, hdiff⟩ := he
  · have habsent : pre.get name = none := by
      split_ifs at hdiff with _ hnone
      exact hnone
    exact ⟨(hpost name v hv).isValidName, rfl, by simp [settles, PlanNode.fresh,
      restoredValue, habsent]⟩
  · have hproject : projectValue blake3 filter name v = value := by
      split_ifs at hdiff
      exact Option.some.inj hdiff
    exact ⟨(hpre name v hv).isValidName, rfl,
      hproject ▸ settles_setEnv_projectValue (hpre name v hv) hv⟩
  · obtain ⟨prev, hprev, hproject⟩ :
        ∃ prev, pre.get name = some prev ∧ projectValue blake3 filter name prev = before := by
      cases hget : pre.get name with
      | none => simp [hget] at hdiff
      | some prev =>
        simp only [hget] at hdiff
        split_ifs at hdiff
        exact ⟨prev, rfl, congrArg Prod.fst (Option.some.inj hdiff)⟩
    exact ⟨(hpre name prev hprev).isValidName, rfl,
      hproject ▸ settles_setEnv_projectValue (hpre name prev hprev) hprev⟩

theorem exists_envName_emit (diff : EnvDiff) (name : String) :
    (∃ node ∈ emitForEnvDiff diff.added.entries diff.removed.entries diff.modified.entries,
        envName node.op = some name) ↔
      (name ∈ diff.added.keys ∨ name ∈ diff.removed.keys) ∨ name ∈ diff.modified.keys := by
  simp only [emitForEnvDiff, mem_append, or_and_right, exists_or, List.mem_map,
    exists_exists_and_eq_and, PlanNode.fresh, envName, Option.some.injEq, SortedMap.keys]

theorem exists_envName_iff (name : String) :
    (∃ node ∈ emitForEnvDiff (diffEnvMaps blake3 filter pre post).added.entries
        (diffEnvMaps blake3 filter pre post).removed.entries
        (diffEnvMaps blake3 filter pre post).modified.entries, envName node.op = some name) ↔
      filter.isIgnored name = false ∧ pre.get name ≠ post.get name := by
  rw [exists_envName_emit]
  simp only [mem_keys_iff, diffEnvMaps, get_filterMap]
  -- a name is added, removed, modified or none of them by what the two maps hold
  cases hignored : filter.isIgnored name with
  | true => cases pre.get name <;> cases post.get name <;> simp
  | false =>
    cases hpre : pre.get name with
    | none => cases post.get name <;> simp
    | some prev =>
      cases post.get name with
      | none => simp
      | some value => by_cases hsame : prev = value <;> simp [hsame]

theorem planNodes_of_eventPath (r : Renderers) (order : HashOrder) (probe : StateProbe)
    (store : PlannerStore) {ev : CaptureEvent} (hcomplete : ev.isPartial = false)
    (hpath : eventPath ev = none) :
    planNodes r order [ev] probe store =
      (emitForEvent r ev probe store (classify order [ev] probe)).nodes := by
  have hlive : liveEvents [ev] = [ev] :=
    liveEvents_eq_reverse (by simpa using hcomplete) (pairwise_singleton _ _)
  rw [planNodes, hlive, flatMap_singleton, emitUnlessSkipped, skipsEvent, hpath, if_neg (by simp)]

/-- The event journaled for two environments, as the shell reports them. -/
def envDiffEvent (malformed : Bytes → String) (blake3 : Bytes → BlobHash) (filter : EnvFilter)
    (id : EventId) (command : CommandId) (ts : TimePoint) (pre post : EnvMap) : CaptureEvent where
  id := id
  command := command
  ts := ts
  isPartial := false
  kind := (diffEnvBlocks blake3 filter malformed (canonicalize pre) (canonicalize post)).kind

/-- The script of a plan that is run with the env executor. -/
def envScript (probe : StateProbe) (paths : PathsFilter) (policy : ConflictPolicy)
    (nodes : List PlanNode) : String :=
  (runFrom (envRuntime probe) paths false policy 0 nodes "").2

/-- Evaluated after the command, the script gives every variable that is neither ignored nor
redacted its value from before, and leaves alone those that are ignored or did not change. -/
def RestoresEnv (filter : EnvFilter) (pre post : EnvMap) (script : String) : Prop :=
  ∃ after, evalEnvScript script post.get = some after ∧
    (∀ name, filter.isIgnored name = false → filter.isRedacted name = false →
      after name = pre.get name) ∧
    (∀ name, filter.isIgnored name = true ∨ pre.get name = post.get name →
      after name = post.get name)

/-- **The environment round trip.** -/
theorem envUndo_restores (malformed : Bytes → String) (blake3 : Bytes → BlobHash)
    (filter : EnvFilter) {pre post : EnvMap} (hpre : ValidEnv pre) (hpost : ValidEnv post)
    (id : EventId) (command : CommandId) (ts : TimePoint) (r : Renderers) (order : HashOrder)
    (probe : StateProbe) (store : PlannerStore) (paths : PathsFilter) (policy : ConflictPolicy) :
    RestoresEnv filter pre post (envScript probe paths policy (planNodes r order
      [envDiffEvent malformed blake3 filter id command ts pre post] probe store)) := by
  unfold RestoresEnv envScript envDiffEvent
  rw [diffEnvBlocks, parseBlock_canonicalize malformed hpre,
    parseBlock_canonicalize malformed hpost, planNodes_of_eventPath r order probe store rfl rfl,
    emitForEvent, EnvDiff.kind, evalEnvScript_run (setsTo_emitForEnvDiff hpre hpost)]
  refine ⟨_, rfl, ?_, ?_⟩
  · intro name hignored hredacted
    simp only [exists_envName_iff, hignored, true_and, restoredValue, hredacted,
      Bool.false_eq_true, if_false]
    split_ifs with hchanged
    · rfl
    · exact (not_not.mp hchanged).symm
  · intro name hkept
    simp only [exists_envName_iff]
    rw [if_neg]
    rintro ⟨hignored, hchanged⟩
    rcases hkept with hkept | hkept
    · rw [hignored] at hkept
      cases hkept
    · exact hchanged hkept

/-- An editor with a quote in its name, and a secret. -/
def editorEnv : EnvMap := .ofList [("EDITOR", "it's vi"), ("API_TOKEN", "hunter2")]

/-- Another editor, no secret, and a new variable. -/
def otherEditorEnv : EnvMap := .ofList [("EDITOR", "ed\n"), ("LANG", "C")]

/-- Nothing is on disk. -/
def bareProbe : StateProbe := ⟨fun _ => none, fun _ => none⟩

theorem validEnv_of_entries {env : EnvMap}
    (h : ∀ e ∈ env.entries, isValidName e.1 = true ∧ Char.ofNat 0 ∉ e.2.toList ∧
      redactedPrefix.toList.isPrefixOf e.2.toList = false) : ValidEnv env := by
  intro name value hget
  obtain ⟨hname, hnul, hmark⟩ := h _ (get_eq_some_iff.mp hget)
  exact ⟨hname, hnul, hmark⟩

theorem envUndo_restores_editor :
    ValidEnv editorEnv ∧ ValidEnv otherEditorEnv ∧
      RestoresEnv .default editorEnv otherEditorEnv (envScript bareProbe none .abort
        (planNodes .silent .insertion [envDiffEvent (fun _ => "") (fun _ => ⟨0⟩) .default ⟨0⟩ ⟨0, 1⟩
          ⟨0, 0⟩ editorEnv otherEditorEnv] bareProbe fullStore)) :=
  have hpre : ValidEnv editorEnv := validEnv_of_entries (by decide +kernel)
  have hpost : ValidEnv otherEditorEnv := validEnv_of_entries (by decide +kernel)
  ⟨hpre, hpost, envUndo_restores _ _ _ hpre hpost _ _ _ _ _ _ _ _ _⟩

end RoundTrip

end ShitUndo
