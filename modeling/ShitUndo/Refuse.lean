import ShitUndo.Events

/-!
# The refuse list

`refuse.rs`: command classes that `shit undo` will not touch. `plan` consults it before it looks
at any event, so a listed command gets a plan of one `Refuse` node whatever its journal says.
Matching is on whitespace-separated words, with no shell parsing.
-/

namespace ShitUndo

/-- `RefuseEntry`. The only pattern kind is `WordPrefix`, a list of leading words. -/
structure RefuseEntry where
  cls : String
  patterns : List (List String)
  reason : String
  remediation : Option String
deriving DecidableEq, Repr

def catalog : List RefuseEntry :=
  [ { cls := "remote-push"
      patterns := [["git", "push"], ["docker", "push"], ["podman", "push"], ["npm", "publish"],
        ["cargo", "publish"], ["gh", "release", "upload"]]
      reason := "remote replication is outside our visibility; " ++
        "we capture only local-side state"
      remediation := some ("revert the local working tree if needed; " ++
        "the remote side is yours to roll back manually") },
    { cls := "history-rewrite"
      patterns := [["git", "rebase", "-i"], ["git", "rebase", "--interactive"],
        ["git", "filter-branch"], ["git", "filter-repo"]]
      reason := "history-rewriting commands change ref topology in " ++
        "ways our event journal cannot mechanically reverse"
      remediation := some ("git reflog (e.g. `git reset --hard HEAD@\x7b1\x7d`) is the " ++
        "standard recovery path") },
    { cls := "identity-generation"
      patterns := [["gpg", "--gen-key"], ["gpg", "--full-gen-key"],
        ["gpg", "--full-generate-key"], ["ssh-keygen"]]
      reason := "key material may already be distributed; deleting " ++
        "the file alone cannot un-publish a public key"
      remediation := some ("delete the key file manually if you are sure it was " ++
        "never shared; otherwise rotate / revoke through your usual channel") },
    { cls := "power-state"
      patterns := [["shutdown"], ["reboot"], ["halt"], ["poweroff"]]
      reason := "power-state changes have no inverse operation"
      remediation := none },
    { cls := "sandbox-escape"
      patterns := [["chroot"], ["unshare"], ["nsenter"]]
      reason := "namespace / chroot transitions move execution into " ++
        "a context our capture tier can no longer observe"
      remediation := some ("interactive transitions are reversible by exiting the " ++
        "namespace shell; persistent ones (e.g. systemd-nspawn) are out of v1 scope") },
    { cls := "opaque-shell-mutation"
      patterns := [["source"], ["."]]
      reason := "sourcing a script mutates the parent shell in " ++
        "arbitrary ways our capture tier does not introspect"
      remediation := some ("if the sourced script defines env vars / aliases / " ++
        "functions, the AR06 shell-state diff (when complete) " ++
        "will reverse them; today it does not") },
    { cls := "system-identity"
      patterns := [["useradd"], ["userdel"], ["usermod"], ["groupadd"], ["groupdel"],
        ["passwd"]]
      reason := "PAM / shadow-file mutations touch system identity " ++
        "state we do not trust ourselves to roll back without explicit per-OS policy"
      remediation := some ("use the matching inverse command directly (e.g. " ++
        "`userdel`) once you've confirmed no side-effects (home " ++
        "directory, sudoers entries, group memberships) need special handling") } ]

/-- `char::is_whitespace`: the Unicode `White_Space` property. -/
def isWhiteSpace (c : Char) : Bool :=
  let n := c.toNat
  (0x9 ≤ n && n ≤ 0xD) || n == 0x20 || n == 0x85 || n == 0xA0 || n == 0x1680
    || (0x2000 ≤ n && n ≤ 0x200A) || n == 0x2028 || n == 0x2029 || n == 0x202F
    || n == 0x205F || n == 0x3000

/-- `tokenize`: `split_whitespace`. -/
def tokenize (cmdString : String) : List String :=
  ((cmdString.toList.splitOnP isWhiteSpace).filter (fun w => w ≠ [])).map String.ofList

/-- `pattern_matches` for a `WordPrefix` pattern. -/
def patternMatches (words tokens : List String) : Bool :=
  words.length ≤ tokens.length && (tokens.zip words).all (fun tw => tw.1 == tw.2)

/-- `match_command`: the first entry one of whose patterns matches. -/
def matchCommand (cmdString : String) : Option RefuseEntry :=
  let tokens := tokenize cmdString
  if tokens = [] then none
  else catalog.find? (fun entry => entry.patterns.any (fun pat => patternMatches pat tokens))

/-- The catalog entry that refuses a recorded command, if any. -/
def CommandRecord.refusal (command : CommandRecord) : Option RefuseEntry :=
  command.cmdString.bind matchCommand

end ShitUndo
