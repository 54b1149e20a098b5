import JacobOS.Fs.Sfs

/-!
# The shell of `kernel/shell.c`

The commands are block programs over the file system.  `cwd` is an argument of each command and only
`cmd_cd` returns another one; the other commands return what they print.  The heap enters through
`kmalloc`, which says for a command whether a request of a given size is served.  `rm_rec` is a
recursion inside an endless loop, so it runs on fuel, and `none` says that it has not returned yet.
-/

namespace JacobOS.Shell

open BlockProgram CString Fs

def kprint (s : String) : SfsM (List UInt8) := return ascii s

/-! ## Path handling -/

/-- The loop of `resolve` over the bytes of `path`; `comp` is `comp[0..ci)`. -/
def resolveLoop : List UInt8 → Nat → List UInt8 → SfsM (Option Nat)
  | [], cur, comp => if comp.length > 0 then sfsLookup cur comp else return some cur
  | c :: path, cur, comp =>
      if c = 0x2F then
        if comp.length > 0 then do
          match ← sfsLookup cur comp with
          | none => return none
          | some cur => resolveLoop path cur []
        else resolveLoop path cur []
      else if c = 0 then
        if comp.length > 0 then sfsLookup cur comp else return some cur
      else if comp.length < 31 then resolveLoop path cur (comp ++ [c])
      else resolveLoop path cur comp

def resolve (cwd : Nat) (path : List UInt8) : SfsM (Option Nat) :=
  resolveLoop path (if path.headD 0 = 0x2F then sfsRoot else cwd) []

/-- The loop of `name_of` from index `i` on.  A directory has at most 224 entries. -/
def nameOfLoop (parent child : Nat) : Nat → Nat → SfsM (Option (List UInt8))
  | 0, _ => return none
  | calls + 1, i => do
      match ← sfsReaddir parent i with
      | none => return none
      | some (ino, nm) =>
          if ino = child ∧ strcmp nm dot ≠ 0 ∧ strcmp nm dotdot ≠ 0 then return some nm
          else nameOfLoop parent child calls (i + 1)

def nameOf (parent child : Nat) : SfsM (Option (List UInt8)) := nameOfLoop parent child 225 0

/-- The `while` loop of `print_cwd`: the names from `cur` upwards, at most `n` of them. -/
def cwdParts : Nat → Nat → SfsM (List (List UInt8))
  | 0, _ => return []
  | n + 1, cur =>
      if cur = sfsRoot then return [] else do
        match ← sfsLookup cur dotdot with
        | none => return []
        | some parent =>
            match ← nameOf parent cur with
            | none => return []
            | some nm =>
                let parts ← cwdParts n parent
                return nm :: parts

def printCwd (cwd : Nat) : SfsM (List UInt8) :=
  if cwd = sfsRoot then kprint "/" else do
    let parts ← cwdParts 16 cwd
    return parts.reverse.flatMap fun nm => ascii "/" ++ nm

/-! ## Commands -/

/-- An argument that is neither null nor empty. -/
def given (arg : Option (List UInt8)) : Option (List UInt8) := arg.filter fun s => s.headD 0 ≠ 0

def lsLoop (dir : Nat) : Nat → Nat → SfsM (List UInt8)
  | 0, _ => return []
  | calls + 1, i => do
      match ← sfsReaddir dir i with
      | none => return []
      | some (ino, nm) =>
          if strcmp nm dot = 0 ∨ strcmp nm dotdot = 0 then lsLoop dir calls (i + 1) else
            let type ← sfsType ino
            let rest ← lsLoop dir calls (i + 1)
            return nm ++ (if type = sfsDir then ascii "/" else []) ++ ascii "\n" ++ rest

def lsDir : Option Nat → SfsM (List UInt8)
  | none => kprint "ls: no such path\n"
  | some dir => do
      let type ← sfsType dir
      if type ≠ sfsDir then kprint "ls: not a directory\n" else lsLoop dir 225 0

def cmdLs (cwd : Nat) (path : Option (List UInt8)) : SfsM (List UInt8) :=
  match given path with
  | none => lsDir (some cwd)
  | some path => do
      let dir ← resolve cwd path
      lsDir dir

def enterDir (cwd : Nat) : Option Nat → SfsM (Nat × List UInt8)
  | none => return (cwd, ascii "cd: no such directory\n")
  | some dir => do
      let type ← sfsType dir
      if type ≠ sfsDir then return (cwd, ascii "cd: not a directory\n") else return (dir, [])

/-- `cmd_cd`: the new `cwd` and what is printed. -/
def cmdCd (cwd : Nat) (path : Option (List UInt8)) : SfsM (Nat × List UInt8) :=
  match given path with
  | none => return (sfsRoot, [])
  | some path => do
      let dir ← resolve cwd path
      enterDir cwd dir

def cmdCat (kmalloc : UInt32 → Bool) (cwd : Nat) (name : Option (List UInt8)) : SfsM (List UInt8) :=
  match given name with
  | none => kprint "cat: need a file\n"
  | some name => do
      match ← resolve cwd name with
      | none => kprint "cat: no such file\n"
      | some ino =>
          let type ← sfsType ino
          if type ≠ sfsFile then kprint "cat: not a file\n" else
            let sz ← sfsSize ino
            if kmalloc (sz + 1) = false then kprint "cat: out of memory\n" else
              let buf ← sfsRead ino sz.toNat
              return cstr buf ++ (if buf ≠ [] ∧ buf.getLast? ≠ some 0x0A then ascii "\n" else [])

/-- `sfs_lookup`, and `sfs_create` of a file if there is none. -/
def lookupOrCreate (cwd : Nat) (name : List UInt8) : SfsM (Option Nat) := do
  match ← sfsLookup cwd name with
  | some ino => return some ino
  | none => sfsCreate cwd name sfsFile

/-- The memory behind a buffer that holds `bytes`. -/
def bufferOf (bytes : List UInt8) (i : Nat) : UInt8 := bytes.getD i 0

def cmdCp (kmalloc : UInt32 → Bool) (cwd : Nat) (src dst : Option (List UInt8)) :
    SfsM (List UInt8) :=
  match given src, given dst with
  | some src, some dst => do
      match ← resolve cwd src with
      | none => kprint "cp: no such file\n"
      | some s =>
          let type ← sfsType s
          if type ≠ sfsFile then kprint "cp: not a file\n" else
            let sz ← sfsSize s
            if kmalloc (if sz ≠ 0 then sz else 1) = false then kprint "cp: out of memory\n" else
              let buf ← sfsRead s sz.toNat
              match ← lookupOrCreate cwd dst with
              | none => kprint "cp: cannot create dest\n"
              | some d =>
                  let dtype ← sfsType d
                  if dtype ≠ sfsFile then kprint "cp: dest is not a file\n" else
                    let _ ← sfsWrite d (bufferOf buf) buf.length
                    return []
  | _, _ => kprint "cp: usage: cp <src> <dst>\n"

def cmdMv (kmalloc : UInt32 → Bool) (cwd : Nat) (src dst : Option (List UInt8)) :
    SfsM (List UInt8) :=
  match given src, given dst with
  | some srcName, some dstName => do
      match ← sfsLookup cwd srcName with
      | none => kprint "mv: no such file in current directory\n"
      | some s =>
          let type ← sfsType s
          if type ≠ sfsFile then kprint "mv: only files are supported\n" else
            let out ← cmdCp kmalloc cwd src dst
            let found ← sfsLookup cwd dstName
            if found.isSome then
              let _ ← sfsUnlink cwd srcName
              return out
            else return out
  | _, _ => kprint "mv: usage: mv <src> <dst>\n"

/-- The scan of `rm_rec` for the first child other than `.` and `..`. -/
def firstChild (ino : Nat) : Nat → Nat → SfsM (Option (List UInt8))
  | 0, _ => return none
  | calls + 1, i => do
      match ← sfsReaddir ino i with
      | none => return none
      | some (_, nm) =>
          if strcmp nm dot = 0 ∨ strcmp nm dotdot = 0 then firstChild ino calls (i + 1)
          else return some nm

/-- The `for (;;)` loop of `rm_rec`, which ignores what the recursive call returns. -/
def rmLoop (rec : Nat → List UInt8 → SfsM (Option (Option Nat))) (ino : Nat) :
    Nat → SfsM (Option Unit)
  | 0 => return none
  | passes + 1 => do
      match ← firstChild ino 225 0 with
      | none => return some ()
      | some nm =>
          match ← rec ino nm with
          | none => return none
          | some _ => rmLoop rec ino passes

def rmRec : Nat → Nat → List UInt8 → SfsM (Option (Option Nat))
  | 0, _, _ => return none
  | fuel + 1, parent, name => do
      match ← sfsLookup parent name with
      | none => return some none
      | some ino =>
          let type ← sfsType ino
          if type = sfsDir then
            match ← rmLoop (rmRec fuel) ino (fuel + 1) with
            | none => return none
            | some _ =>
                let r ← sfsUnlink parent name
                return some r
          else
            let r ← sfsUnlink parent name
            return some r

/-! ## Command lines -/

/-- `while (*p == ' ') p++`: how far it goes. -/
def skipSpaces : List UInt8 → Nat
  | [] => 0
  | c :: s => if c = 0x20 then skipSpaces s + 1 else 0

/-- `while (*p && *p != ' ') p++`: how far it goes. -/
def skipWord : List UInt8 → Nat
  | [] => 0
  | c :: s => if c ≠ 0 ∧ c ≠ 0x20 then skipWord s + 1 else 0

/-- The loop of `tokenize` with room for `left` more arguments: the line as it leaves it, and the
offsets it stores in `argv`. -/
def tokenizeLoop : Nat → List UInt8 → Nat → List UInt8 × List Nat
  | 0, line, _ => (line, [])
  | left + 1, line, p =>
      if line.getD p 0 = 0 then (line, []) else
        -- the skipped spaces become the terminators of the words before them
        let n := skipSpaces (line.drop p)
        let line := line.take p ++ List.replicate n 0 ++ line.drop (p + n)
        let p := p + n
        if line.getD p 0 = 0 then (line, []) else
          let r := tokenizeLoop left line (p + skipWord (line.drop p))
          (r.1, p :: r.2)

/-- `tokenize`: the strings behind the pointers in `argv`. -/
def tokenize (line : List UInt8) (max : Nat) : List (List UInt8) :=
  (tokenizeLoop max line 0).2.map fun p => (tokenizeLoop max line 0).1.drop p

/-- The first `>` or `>>` of the arguments, numbered from `i` on, and whether it appends. -/
def findRedir : Nat → List (List UInt8) → Option (Nat × Bool)
  | _, [] => none
  | i, arg :: args =>
      if strcmp arg (ascii ">") = 0 then some (i, false)
      else if strcmp arg (ascii ">>") = 0 then some (i, true)
      else findRedir (i + 1) args

/-- The loop that collects the words, the first of them argument `i`, in `text[256]`.  `text` is the
string in the buffer, which never has more than 255 bytes. -/
def echoText : Nat → List (List UInt8) → List UInt8 → List UInt8
  | _, [], text => text
  | i, word :: words, text =>
      let text := if i > 1 ∧ text.length < 255 then text ++ ascii " " else text
      echoText (i + 1) words (text ++ (cstr word).take (255 - text.length))

/-- `echo … >> f`: read all of the file and write it back with `text` after it. -/
def echoAppend (kmalloc : UInt32 → Bool) (ino : Nat) (text : List UInt8) : SfsM (List UInt8) := do
  let old ← sfsSize ino
  if kmalloc (old + UInt32.ofNat text.length + 1) = false then kprint "echo: out of memory\n" else
    let buf ← sfsRead ino old.toNat
    let _ ← sfsWrite ino (bufferOf (buf ++ text)) (buf.length + text.length)
    return if buf.length + text.length > 14 * 512 then ascii "echo: file capped at 7KB\n" else []

def echo (kmalloc : UInt32 → Bool) (cwd : Nat) (argv : List (List UInt8)) : SfsM (List UInt8) :=
  match findRedir 1 argv.tail with
  | none => return echoText 1 argv.tail [] ++ ascii "\n"
  | some (redir, append) =>
      let text := echoText 1 (argv.tail.take (redir - 1)) []
      match argv[redir + 1]? with
      | none => kprint "echo: need a filename after >\n"
      | some fname => do
          match ← lookupOrCreate cwd fname with
          | none => kprint "echo: cannot create file\n"
          | some ino =>
              if append then echoAppend kmalloc ino text else
                let _ ← sfsWrite ino (bufferOf text) text.length
                return []

def mkdir (cwd : Nat) (argv : List (List UInt8)) : SfsM (List UInt8) :=
  match argv[1]? with
  | none => kprint "mkdir: need a name\n"
  | some name => do
      let made ← sfsCreate cwd name sfsDir
      return if made = none then ascii "mkdir: failed\n" else []

def touch (cwd : Nat) (argv : List (List UInt8)) : SfsM (List UInt8) :=
  match argv[1]? with
  | none => kprint "touch: need a name\n"
  | some name => do
      let ino ← lookupOrCreate cwd name
      return if ino = none then ascii "touch: failed\n" else []

def rm (fuel cwd : Nat) (argv : List (List UInt8)) : SfsM (Option (List UInt8)) :=
  match argv[1]? with
  | none => return some (ascii "rm: need a name\n")
  | some arg =>
      if strcmp arg (ascii "-r") = 0 then
        match argv[2]? with
        | none => return some (ascii "rm: -r needs a name\n")
        | some name => do
            let r ← rmRec fuel cwd name
            return r.map fun r => if r = none then ascii "rm: failed\n" else []
      else do
        let r ← sfsUnlink cwd arg
        return some (if r = none then ascii "rm: failed (missing or non-empty dir)\n" else [])

/-- The commands that change neither the file system nor `cwd`.  What they print is left out. -/
def otherCommands : List String :=
  ["help", "clear", "ps", "spawn", "exec", "gt", "stress", "meminfo", "uptime"]

/-- `strcmp(cmd, s) == 0`. -/
def isCmd (cmd : List UInt8) (s : String) : Bool := strcmp cmd (ascii s) == 0

/-- A command that leaves `cwd` as it is. -/
def prints (cwd : Nat) (p : SfsM (List UInt8)) : SfsM (Option (Nat × List UInt8)) := do
  let out ← p
  return some (cwd, out)

/-- The chain of `strcmp`s in `run_command`: the new `cwd` and what is printed. -/
def dispatch (fuel : Nat) (kmalloc : UInt32 → Bool) (cwd : Nat) (cmd : List UInt8)
    (argv : List (List UInt8)) : SfsM (Option (Nat × List UInt8)) :=
  if isCmd cmd "pwd" then prints cwd do
    let out ← printCwd cwd
    return out ++ ascii "\n"
  else if isCmd cmd "ls" then prints cwd (cmdLs cwd argv[1]?)
  else if isCmd cmd "cd" then do
    let r ← cmdCd cwd argv[1]?
    return some r
  else if isCmd cmd "mkdir" then prints cwd (mkdir cwd argv)
  else if isCmd cmd "touch" then prints cwd (touch cwd argv)
  else if isCmd cmd "cat" then prints cwd (cmdCat kmalloc cwd argv[1]?)
  else if isCmd cmd "echo" then prints cwd (echo kmalloc cwd argv)
  else if isCmd cmd "cp" then prints cwd (cmdCp kmalloc cwd argv[1]? argv[2]?)
  else if isCmd cmd "mv" then prints cwd (cmdMv kmalloc cwd argv[1]? argv[2]?)
  else if isCmd cmd "rm" then do
    let r ← rm fuel cwd argv
    return r.map fun out => (cwd, out)
  else if otherCommands.any (isCmd cmd) then return some (cwd, [])
  else return some (cwd, ascii "unknown command: " ++ cstr cmd ++ ascii "  (try 'help')\n")

/-- `bcache_sync`, to persist any filesystem changes from a command that has returned. -/
def finish : Option (Nat × List UInt8) → SfsM (Option (Nat × List UInt8))
  | none => return none
  | some r => do
      Prog.sync (.ret ())
      return some r

def runCommand (fuel : Nat) (kmalloc : UInt32 → Bool) (cwd : Nat) (line : List UInt8) :
    SfsM (Option (Nat × List UInt8)) :=
  match tokenize line 16 with
  | [] => return some (cwd, [])
  | cmd :: args => do
      let r ← dispatch fuel kmalloc cwd cmd (cmd :: args)
      finish r

end JacobOS.Shell
