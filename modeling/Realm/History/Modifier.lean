import Realm.History

/-! The parts of a reference that change the text it stands for. -/
namespace Realm.History

inductive Modifier where
  /-- Keep what precedes the last slash. -/
  | head
  /-- Keep what follows the last slash. -/
  | tail
  /-- Leave out the extension of the file name. -/
  | root
  /-- Keep the extension of the file name only. -/
  | extension
  /-- Show the line instead of running it. -/
  | printOnly
  /-- Repeat the last substitution. -/
  | again (everywhere : Bool)
  /-- Substitute; an empty pattern stands for the pattern used last. -/
  | substitute (everywhere : Bool) (pattern replacement : Text)
deriving DecidableEq, Repr

/-- The text up to the extension of its last path component, and the extension with its
dot. A dot that begins the component begins no extension. -/
def splitExtension? (t : Text) : Option (Text × Text) :=
  let (directory,base) :=
    match Text.splitLast? '/' t with
    | some (a,b) => (a ++ ['/'],b)
    | none => ([],t)
  match Text.splitLast? '.' base with
  | some (c :: stem,ext) => some (directory ++ c :: stem,'.' :: ext)
  | _ => none

def headOf (t : Text) : Text :=
  match Text.splitLast? '/' t with
  | some ([],_) => ['/']
  | some (before,_) => before
  | none => t

def tailOf (t : Text) : Text :=
  match Text.splitLast? '/' t with
  | some (_,after) => after
  | none => t

def rootOf (t : Text) : Text :=
  match splitExtension? t with
  | some (stem,_) => stem
  | none => t

def extensionOf (t : Text) : Text :=
  match splitExtension? t with
  | some (_,ext) => ext
  | none => []

/-- Read one field of a substitution: up to the delimiter, which is passed over, or up to
a blank where those end the field too. A backslash protects the character after it and
itself stays, unless that character is the delimiter or another backslash. The last
component tells whether the delimiter was there. -/
def readField (delimiter : Char) (stopAtBlank : Bool) : Text → Text × Text × Bool
  | [] => ([],[],false)
  | ['\\'] => ([],[],false)
  | '\\' :: c :: t =>
    let (field,rest,closed) := readField delimiter stopAtBlank t
    (if c ≠ delimiter ∧ c ≠ '\\' then '\\' :: c :: field else c :: field,rest,closed)
  | c :: t =>
    if c = delimiter then ([],t,true)
    else if stopAtBlank && Text.isBlank c then ([],c :: t,false)
    else
      let (field,rest,closed) := readField delimiter stopAtBlank t
      (c :: field,rest,closed)

theorem readField_length_le (d : Char) (b : Bool) (t : Text) :
    (readField d b t).2.1.length ≤ t.length := by
  fun_induction readField d b t <;> simp_all <;> omega

inductive Modifier.Refusal where
  | missing
  /-- What follows the part that makes no sense. -/
  | unrecognized (rest : Text)
  | missingDelimiter

def Modifier.readSubstitution (everywhere : Bool) :
    Text → Except Modifier.Refusal (Modifier × Text)
  | [] => .error .missingDelimiter
  | delimiter :: t =>
    let first := readField delimiter false t
    if first.2.2 then
      let second := readField delimiter true first.2.1
      .ok (.substitute everywhere first.1 second.1,second.2.1)
    else .ok (.substitute everywhere first.1 [],first.2.1)

/-- Read a modifier after its colon, with what follows it. -/
def Modifier.read : Text → Except Modifier.Refusal (Modifier × Text)
  | [] => .error .missing
  | 'h' :: t => .ok (.head,t)
  | 't' :: t => .ok (.tail,t)
  | 'r' :: t => .ok (.root,t)
  | 'e' :: t => .ok (.extension,t)
  | 'p' :: t => .ok (.printOnly,t)
  | '&' :: t => .ok (.again false,t)
  | 'g' :: '&' :: t => .ok (.again true,t)
  | 'g' :: 's' :: t => Modifier.readSubstitution true t
  | 's' :: t => Modifier.readSubstitution false t
  | _ :: t => .error (.unrecognized t)

theorem Modifier.length_readSubstitution {b : Bool} {t rest : Text} {m : Modifier}
    (h : readSubstitution b t = .ok (m,rest)) : rest.length ≤ t.length := by
  unfold readSubstitution at h
  split at h
  · cases h
  · next d t =>
    have h₁ := readField_length_le d false t
    have h₂ := readField_length_le d true (readField d false t).2.1
    simp only at h
    split at h <;> cases h <;> simp only [List.length_cons] <;> omega

theorem Modifier.length_read {t rest : Text} {m : Modifier} (h : read t = .ok (m,rest)) :
    rest.length < t.length := by
  unfold read at h
  split at h
  case h_9 | h_10 =>
    have := length_readSubstitution h
    simp only [List.length_cons]
    omega
  all_goals cases h
  all_goals simp only [List.length_cons]; omega

/-- What has been worked out when some modifiers have been applied. -/
structure Progress where
  text : Text
  printOnly : Bool
  /-- The substitution made last within this reference. -/
  made : Option Substitution
  /-- The substitution that can be repeated. -/
  last : Option Substitution
deriving DecidableEq, Repr

/-- Apply one modifier; `reference` is the text of the reference up to its end. -/
def Modifier.apply (reference : Text) (p : Progress) : Modifier → Except HistoryError Progress
  | .head => .ok { p with text := headOf p.text }
  | .tail => .ok { p with text := tailOf p.text }
  | .root => .ok { p with text := rootOf p.text }
  | .extension => .ok { p with text := extensionOf p.text }
  | .printOnly => .ok { p with printOnly := true }
  | .again everywhere =>
    match p.last with
    | none =>
      .error (.noPreviousSubstitution (if everywhere then ":g&".toList else ":&".toList))
    | some sub =>
      match sub.apply? everywhere p.text with
      | some text => .ok { p with text }
      | none => .error (.substitutionFailed reference)
  | .substitute everywhere pattern replacement =>
    match (if pattern = [] then p.last.map (·.pattern) else some pattern) with
    | none => .error (.noPreviousSubstitution ":s".toList)
    | some pattern =>
      let sub : Substitution := ⟨pattern,replacement⟩
      match sub.apply? everywhere p.text with
      | some text => .ok { p with text, made := some sub, last := some sub }
      | none => .error (.substitutionFailed reference)

end Realm.History
