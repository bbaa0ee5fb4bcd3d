import RegexMachine.Pattern.Reference

/-!
How groups begin. What follows an opening parenthesis says whether a body comes next, and what the
body is for.
-/
namespace RegexMachine.Pattern

/-- What a body in parentheses is for. -/
inductive Frame where
  | group (kind : Grouping)
  | look (kind : Look)
  | condition (target : Target)

inductive Opening where
  /-- A body follows, read under the options given; in a branch reset every branch numbers its
  groups from the same number on. -/
  | body (frame : Frame) (reset : Bool) (options : Options)
  /-- All has been read. -/
  | whole (n : Node Span)
  /-- A comment. -/
  | comment
  /-- Options for the rest of the enclosing group. -/
  | rest (options : Options)

/-- A body under the options of its surroundings. -/
def plainBody (frame : Frame) : Parse Opening := return .body frame false (← get).options

/-- Records one more definition of a group; a name that was given first stays. -/
def defineGroup (groups : Array GroupDef) (raw : Nat) (name : Option String) : Array GroupDef :=
  match groups[raw - 1]? with
  | none => groups.push ⟨name, name.isNone⟩
  | some g => groups.setIfInBounds (raw - 1) ⟨g.name.or name, g.plain && name.isNone⟩

/-- Whether another group than `raw` has a name. -/
def nameClash (groups : Array GroupDef) (raw : Nat) (name : String) : Bool :=
  groups.zipIdx.any fun (g, i) => i + 1 != raw && g.name == some name

def checkName (raw : Nat) (name : String) (start : Nat) : Parse Unit := do
  modify fun s => { s with hasNamed := true }
  if nameClash (← get).groups raw name && !(← behaves .sharedNames) then
    rejectSince (.nameTaken name) start

/-- Gives the next number to a group. Inside a branch reset a number may be given again. -/
def openGroup (name : Option String) (start : Nat) : Parse Nat := do
  modify fun s => { s with groupCount := s.groupCount + 1 }
  let raw := (← get).groupCount
  if (← read).maxCaptures < raw then rejectSince .tooManyCaptures start
  if let some n := name then checkName raw n start
  modify fun s => { s with groups := defineGroup s.groups raw name }
  return raw

def openCapture (name : Option String) (start : Nat) : Parse Opening := do
  let group ← openGroup name start
  plainBody (.group (.capture group name))

def openNamed (close : Char) (start : Nat) : Parse Opening := do
  skip 1
  let name ← readName close start
  openCapture (some name) start

/-- Offset after a comment's text, or past the end; a backslash hides the next character. -/
def remarkEnd (b : Bytes) (i : Nat) : Nat → Nat
  | 0 => i
  | n + 1 =>
    match (b[i]?).map byteChar with
    | none => i
    | some ')' => i
    | some '\\' => remarkEnd b (i + 2) n
    | some _ => remarkEnd b (i + 1) n

def readRemark (start : Nat) : Parse Opening := do
  let pos ← here
  let b := (← read).pattern
  jump (remarkEnd b pos (b.size - pos))
  if !(← eat ')') then rejectSince .endInGroup start
  return .comment

/-- Reads `(?P<name>...)`, `(?P=name)` and `(?P>name)` from the letter on. -/
def openNamedByP (start : Nat) : Parse Opening := do
  skip 1
  match ← peek with
  | some '<' => openNamed '>' start
  | some '=' =>
    skip 1
    return .whole (← referenceNode (.name (← readName ')' start)) start)
  | some '>' =>
    skip 1
    return .whole (← callNode (.name (← readName ')' start)) start)
  | _ => rejectSince .undefinedGroupOption start

/-- Reads `(?R)`, `(?&name)`, `(?1)`, `(?-1)` and `(?+1)` after the question mark. -/
def readPerlCall (start : Nat) : Parse Opening := do
  match ← peek with
  | some 'R' =>
    skip 1
    if !(← eat ')') then rejectSince .invalidGroupOption start
    return .whole (← callNode (.number 0) start)
  | some '&' =>
    skip 1
    return .whole (← callNode (.name (← readName ')' start)) start)
  | _ => return .whole (← callNode (← readTarget ')' start true) start)

/-- Reads a condition's target between quotes, and the end of the condition. -/
def quotedCondition (close : Char) (first start : Nat) : Parse Target := do
  skip 1
  let target ← readTarget close first false
  if !(← eat ')') then rejectSince .invalidCondition start
  return target

/-- Reads a condition after its opening parenthesis. -/
def openCondition (start : Nat) : Parse Opening := do
  skip 1
  let first ← here
  let target ← match ← peek with
    | none => rejectSince .invalidCondition start
    | some '?' => rejectSince .invalidCondition start
    | some '<' => quotedCondition '>' first start
    | some '\'' => quotedCondition '\'' first start
    | some c =>
      if c.isDigit || c == '-' || c == '+' then readTarget ')' first false
      else pure (Target.name (← readName ')' first))
  noteNumbered target first
  plainBody (.condition target)

/-- Effect of an option letter. -/
def optionLetter? (d : Dialect) (off : Bool) (o : Options) (c : Char) : Option Options :=
  match c with
  | 'i' => some (o.set .ignoreCase !off)
  | 'x' => some (o.set .extended !off)
  | 'm' =>
    if d.allows .perlOptions then some (o.set .singleLine off)
    else if d.allows .rubyOptions then some (o.set .dotAll !off)
    else none
  | 's' => if d.allows .perlOptions then some (o.set .dotAll !off) else none
  | _ => none

/-- Reads option letters, at most as many as given, up to a body or the end of the group. -/
def readOptions (start : Nat) (off : Bool) (o : Options) : Nat → Parse Opening
  | 0 => stall
  | fuel + 1 => do
    match ← peek with
    | none => rejectSince .endInGroup start
    | some c =>
      skip 1
      if c == ')' then return .rest o
      else if c == ':' then return .body (.group .plain) false o
      else if c == '-' && !off then readOptions start true o fuel
      else
        match optionLetter? (← read).dialect off o c with
        | some o => readOptions start off o fuel
        | none => rejectSince .undefinedGroupOption start

/-- Reads what follows `(?`. -/
def readExtension (start : Nat) : Parse Opening := do
  let d := (← read).dialect
  let next ← peekAt 1
  match ← peek with
  | none => rejectSince .endInGroup start
  | some c =>
    if c == ':' then
      skip 1
      plainBody (.group .plain)
    else if c == '>' then
      skip 1
      plainBody (.group .atomic)
    else if c == '=' || c == '!' then
      skip 1
      plainBody (.look ⟨false, c == '!'⟩)
    else if c == '<' && (next == some '=' || next == some '!') then
      skip 2
      plainBody (.look ⟨true, next == some '!'⟩)
    else if c == '<' && d.allows .namedGroup then openNamed '>' start
    else if c == '\'' && d.allows .namedGroup then openNamed '\'' start
    else if c == '#' then readRemark start
    else if c == '~' && d.allows .absent then
      skip 1
      if ← sees '|' then reject (.unsupported "absent stopper") start ((← here) + 1)
      plainBody (.group .absent)
    else if c == '|' && d.allows .branchReset then
      skip 1
      return .body (.group .plain) true (← get).options
    else if c == '(' && d.allows .conditional then openCondition start
    else if c == 'P' && d.allows .namedByP then openNamedByP start
    else if d.allows .perlCalls && (c == 'R' || c == '&' || c == '+' || c.isDigit) then
      readPerlCall start
    else if d.allows .perlCalls && c == '-' && next.any Char.isDigit then readPerlCall start
    else readOptions start false (← get).options ((← read).pattern.size + 1)

/-- Reads the beginning of a group whose parenthesis has `len` bytes. -/
def readOpening (start len : Nat) : Parse Opening := do
  skip len
  if (← sees '?') && (← allows .groupExtensions) then
    skip 1
    readExtension start
  else if ← hasOption .silentGroups then plainBody (.group .plain)
  else openCapture none start

/-- Reads the parenthesis that closes a group. -/
def closeGroup (start : Nat) : Parse Unit := do
  match ← peekSign with
  | some (.closing, len) => skip len
  | _ => reject .unclosedGroup start (← read).pattern.size

/-- Branches of a conditional. -/
def conditionBranches (start : Nat) : Node Span → Parse (Node Span × Option (Node Span))
  | .alternation _ [yes, no] => return (yes, some no)
  | .alternation _ _ => rejectSince .invalidCondition start
  | body => return (body, none)

/-- The tree of a group whose body has been read. -/
def closeFrame (frame : Frame) (body : Node Span) (start : Nat) : Parse (Node Span) := do
  let span : Span := ⟨start, ← here⟩
  match frame with
  | .group kind => return .group span kind body
  | .look kind => return .look span kind body
  | .condition target =>
    let (yes, no) ← conditionBranches start body
    return .conditional span target [] yes no

end RegexMachine.Pattern
