import Realm.Proofs.Command.Replay
import Realm.Shell

/-! The line `!!`. It brings back the line that was remembered last, as text: references in it
are resolved, but it is cut into tokens at once and not from command to command. So it
repeats a line of game commands, and fails to where the grammar changes within the line. -/
namespace Realm

section Previous

variable {σ : Type}

theorem History.resolve_previous {history : List Text} {text : Text}
    (h : history.getLast? = some text) (last : Option Substitution) :
    resolve history last ['!','!'] = .ok ⟨text,['!','!'],false,none⟩ := by
  have hm : applyModifiers ['!'] ⟨text,false,none,last⟩ [] =
      .ok (⟨text,false,none,last⟩,[]) := by
    rw [applyModifiers]
    intro t ht
    cases ht
  have hr : resolveAfterMark history last ['!'] = .ok ⟨text,['!','!'],false,none⟩ := by
    simp only [resolveAfterMark,Event.read?,Event.find?,h,designatedWords,writtenDesignator?,hm]
    rfl
  have hd : (['!','!'] : Text).drop 1 = ['!'] := rfl
  rw [resolve,hd,hr]

/-- The reference is read by cutting the line that was remembered last into tokens. -/
theorem Tokenizer.dispatch_previous {o : Options σ} (hfull : o.historyLevel = .full)
    (ha : o.aliases.get? ['!'] = none) {text : Text} (h : o.history.getLast? = some text)
    (sub : Option History.Substitution) :
    (Tokenizer.new ['!','!'] sub).dispatch o {} '!' ['!'] =
      match historyTokens { o with historyLevel := .off } (.inText false) none 0 text with
      | .error e => (.error e,Tokenizer.new ['!','!'] sub)
      | .ok tokens =>
        (.ok ((Tokenizer.new ['!','!'] sub).token .history text 2),
          { (Tokenizer.new ['!','!'] sub).skip 2 text with stack := tokens }) := by
  have halias : o.charAlias? '!' = none := Options.charAlias?_eq_none ha
  have hne : o.history ≠ [] := by
    intro hn
    rw [hn] at h
    cases h
  have hallow : allowsReference o true = true := by
    simp [allowsReference,Options.historyEnabled,hfull,hne]
  have hliteral : isLiteralMark true ['!'] = false := by decide
  have hstart : Text.isAllBlank (Tokenizer.new ['!','!'] sub).before = true := rfl
  have hrest : (Tokenizer.new ['!','!'] sub).rest = ['!','!'] := rfl
  have hlast : (Tokenizer.new ['!','!'] sub).lastSubstitution = sub := rfl
  rw [dispatch,if_neg (by rintro ⟨hc,-⟩; exact absurd hc (by decide)),if_pos ⟨rfl,.inr halias⟩]
  simp only [readMark,hstart,hallow,hliteral,hrest,hlast,History.resolve_previous h]
  show (match historyTokens { o with historyLevel := .off } (.inText false) none 0 text with
    | .error e => _
    | .ok tokens => _) = _
  cases historyTokens { o with historyLevel := .off } (.inText false) none 0 text <;> rfl

/-- The first token of the line: the reference, with the tokens of its text in waiting. -/
theorem Tokenizer.next_previous {o : Options σ} (hfull : o.historyLevel = .full)
    (ha : o.aliases.get? ['!'] = none) {text : Text} (h : o.history.getLast? = some text)
    {tokens : List Token}
    (ht : historyTokens { o with historyLevel := .off } (.inText false) none 0 text = .ok tokens)
    (sub : Option History.Substitution) :
    ∃ token t, (Tokenizer.new ['!','!'] sub).next o {} = (.ok (some token),t) ∧
      token.kind = .history ∧ t.stack = tokens ∧ t.rest = [] ∧ t.expanded = text ∧
      t.printOnly = false ∧ t.lastSubstitution = sub := by
  have hd := dispatch_previous hfull ha h sub
  rw [ht] at hd
  exact ⟨_,_,next_dispatch rfl rfl hd,rfl,rfl,rfl,rfl,rfl,rfl⟩

theorem parseLine_error {line : Text} {o : Options σ} {settings : Settings}
    {sub : Option History.Substitution} {e : Error} {t : Tokenizer}
    (hn : (Tokenizer.new line sub).next o {} = (.error e,t)) (w : σ) :
    parseLine line o settings sub w = (.error e,w) := by
  have hread : (Parser.new line o settings sub).restart.read =
      (.error e,{ (Parser.new line o settings sub).restart with tokenizer := t }) := by
    have hn' : (Parser.new line o settings sub).restart.tokenizer.next
        (Parser.new line o settings sub).restart.grammar
        (Parser.new line o settings sub).restart.context = _ := hn
    rw [Parser.read_eq,hn']
  rw [parseLine,Parser.commands_error hread]
  rfl

/-- If the line that was remembered last cannot be cut into tokens, `!!` fails. -/
theorem parseLine_previous_error {o : Options σ} (hfull : o.historyLevel = .full)
    (ha : o.aliases.get? ['!'] = none) {text : Text} (h : o.history.getLast? = some text)
    {e : Error}
    (ht : Tokenizer.historyTokens { o with historyLevel := .off } (.inText false) none 0 text =
      .error e)
    (settings : Settings) (sub : Option History.Substitution) (w : σ) :
    parseLine ['!','!'] o settings sub w = (.error e,w) := by
  have hd := Tokenizer.dispatch_previous hfull ha h sub
  rw [ht] at hd
  exact parseLine_error (Tokenizer.next_error rfl rfl hd) w

/-- A parser that takes the tokens of a text which has been cut at once. -/
def Parser.ofTokens (tokens : List Token) (o : Options σ) (settings : Settings) : Parser σ :=
  ⟨{ Tokenizer.new [] none with stack := tokens },o,settings,.awaitingVerb none⟩

/-- The commands of a text that is cut into tokens at once, by the grammar of the session. -/
def readAtOnce (text : Text) (o : Options σ) (settings : Settings) :
    StateM σ (Except Error (Option CommandTree)) :=
  match Tokenizer.historyTokens { o with historyLevel := .off } (.inText false) none 0 text with
  | .error e => pure (.error e)
  | .ok tokens => do
    let (links,_) ← (Parser.ofTokens tokens o settings).commands
    pure (links.bind linkLine)

theorem readAtOnce_tokens {text : Text} {o : Options σ} {settings : Settings}
    {tokens : List Token} {links : List CommandTree.Link} {t : Tokenizer} {w w' : σ}
    (ht : Tokenizer.historyTokens { o with historyLevel := .off } (.inText false) none 0 text =
      .ok tokens)
    (h : (Parser.ofTokens tokens o settings).commands w = ((.ok links,t),w')) :
    readAtOnce text o settings w = (linkLine links,w') := by
  rw [readAtOnce,ht]
  simp only [bind,StateT.bind,h]
  rfl

/-- The line `!!` means what the line that was remembered last means when it is cut at once. -/
theorem parseLine_previous {o : Options σ} (hfull : o.historyLevel = .full)
    (ha : o.aliases.get? ['!'] = none) {text : Text} (hlast : o.history.getLast? = some text)
    {tokens : List Token}
    (ht : Tokenizer.historyTokens { o with historyLevel := .off } (.inText false) none 0 text =
      .ok tokens)
    (settings : Settings) (sub : Option History.Substitution) :
    ∃ q : Parser σ, q.options = o ∧ q.settings = settings ∧ q.phase.current? = none ∧
      q.tokenizer.stack = tokens ∧ q.tokenizer.rest = [] ∧ q.tokenizer.expanded = text ∧
      q.tokenizer.printOnly = false ∧ q.tokenizer.lastSubstitution = sub ∧
      (Parser.new ['!','!'] o settings sub).commands = q.commands := by
  obtain ⟨token,u,hn,hk,hstack,hrest,hexpanded,hprint,hsub⟩ :=
    Tokenizer.next_previous hfull ha hlast ht sub
  -- The reference itself does nothing but bring in the tokens.
  have hs : Parser.stepAwaitingVerb { (Parser.new ['!','!'] o settings sub).restart with
      tokenizer := u } none token = .ok (.goOn (.awaitingVerb none)) := by
    unfold Parser.stepAwaitingVerb
    rw [hk]
  exact ⟨⟨u,o,settings,.awaitingVerb none⟩,rfl,rfl,rfl,hstack,hrest,hexpanded,hprint,hsub,
    Parser.commands_congr (Parser.read_goesOn hn hs)⟩

/-- A line that has been read means the same when it is cut at once, if the session would cut
its commands as their own grammars do and none inside is opened by an alias of one mark. -/
theorem readAtOnce_line {o : Options σ} (hplain : o.IsPlain)
    {line : Text} {settings : Settings} {sub : Option History.Substitution}
    {links : List CommandTree.Link} {t : Tokenizer} {w w' : σ}
    (h : (Parser.new line o settings sub).commands w = ((.ok links,t),w'))
    (hcalm : Tokenizer.Calm o.history (Tokenizer.new line sub)) {tree : CommandTree}
    (hlink : linkLine links = .ok (some tree))
    (hcuts : ∀ c ∈ tree.walk, c.CutsAlike o settings line)
    (hmark : ∀ c ∈ tree.walk.tail, ¬ c.OpensByMark) (history : List Text) :
    t.expanded = line ∧ ∃ tree', tree'.map Command.bare = tree.map Command.bare ∧
      ∀ w, readAtOnce line { o with history } settings w = (.ok (some tree'),w) := by
  obtain ⟨l,ls,rest,rfl,hwalk,hperm⟩ := CommandTree.walk_of_linkLine hlink
  obtain ⟨tokens,cs,hline⟩ := Parser.readsLine_of_commands h
  have hlinks : (Parser.compileAll cs w).1 = l :: ls := by
    rw [hline.commands_eq] at h
    exact Except.ok.inj (congrArg (fun r => r.1.1) h)
  have hcuts' : ∀ c ∈ cs, c.1.command.CutsAlike o settings line := by
    refine (Parser.compileAll_keeps (P := fun k _ => k.CutsAlike o settings line)
      (fun _ _ _ _ _ => Iff.rfl) cs w).1 fun k hk => hcuts _ ?_
    rw [hlinks] at hk
    rw [hwalk]
    rcases List.mem_cons.1 hk with rfl | hk
    · exact .head _
    · exact .tail _ (hperm.mem_iff.2 (List.mem_map.2 ⟨k,hk,rfl⟩))
  have hmark' : ∀ c ∈ cs.tail, ¬ c.1.command.OpensByMark := by
    obtain ⟨w₁,htail⟩ := Parser.compileAll_tail cs w
    refine (Parser.compileAll_keeps (P := fun k _ => ¬ k.OpensByMark)
      (fun _ _ _ _ _ => Iff.rfl) cs.tail w₁).1 fun k hk => hmark _ ?_
    rw [← htail,hlinks] at hk
    rw [hwalk]
    exact hperm.mem_iff.2 (List.mem_map.2 ⟨k,hk,rfl⟩)
  obtain ⟨hexpanded,tokens',halike,htokens⟩ := hline.cut history rfl rfl hcalm
    (List.Subset.refl line) hcuts' false hmark' 0
  obtain ⟨links',tree',t',hagain,-,hlink',hbare⟩ := hline.tree_replay
    (q := Parser.ofTokens tokens' { o with history } settings) hplain rfl rfl rfl rfl halike
    rfl rfl h hlink
  refine ⟨hexpanded,tree',hbare,fun w => ?_⟩
  have hread := readAtOnce_tokens htokens (hagain w)
  rw [hlink'] at hread
  exact hread

end Previous

namespace Shell

variable {σ : Type} {s s' : Shell σ} {line text : Text} {c : CommandTree} {w w' : σ}

theorem getLast?_remember {max : Nat} (h : 1 ≤ max) (history : List Text) (line : Text) :
    (remember max history line).getLast? = some line := by
  unfold remember
  dsimp only
  rw [List.getLast?_drop,if_neg,List.getLast?_concat]
  rw [List.length_append,List.length_singleton]
  omega

theorem textFor_of_pending (h : s.pending = none) (line : Text) : s.textFor line = line := by
  unfold textFor
  rw [h]

theorem process_ok {parsed : ParsedLine}
    (h : parseLine (s.textFor line) s.options s.settings s.lastSubstitution w =
      (.ok parsed,w')) :
    s.process line w = ((.ok (inputOf parsed),s.accept parsed),w') := by
  rw [process]
  simp only [bind,StateT.bind,h]
  rfl

theorem process_command (h : s.process line w = ((.ok (.command c),s'),w')) :
    ∃ parsed, parseLine (s.textFor line) s.options s.settings s.lastSubstitution w =
        (.ok parsed,w') ∧ parsed.tree = some c ∧ s' = s.accept parsed := by
  rcases hp : parseLine (s.textFor line) s.options s.settings s.lastSubstitution w with
    ⟨e | parsed,w₁⟩
  · rw [process] at h
    simp only [bind,StateT.bind,hp] at h
    cases e <;> cases h
  · rw [process_ok hp] at h
    obtain ⟨⟨hinput,rfl⟩,rfl⟩ := Prod.mk.inj h |>.imp Prod.mk.inj id
    refine ⟨parsed,rfl,?_,rfl⟩
    unfold inputOf at hinput
    split at hinput
    · cases hinput
    · split at hinput
      · next tree ht =>
        cases hinput
        exact ht
      · cases hinput

/-- The line `!!` comes to the commands of `c`, but for their tokens. -/
def Repeats (s : Shell σ) (c : CommandTree) (w : σ) : Prop :=
  ∃ c', (s.process ['!','!'] w).1.1 = .ok (.command c') ∧
    c'.map Command.bare = c.map Command.bare

/-- A text comes to the commands of `c`, but for their tokens, when it is cut at once. -/
def MeansAtOnce (s : Shell σ) (text : Text) (c : CommandTree) (w : σ) : Prop :=
  ∃ c', (readAtOnce text s.options s.settings w).1 = .ok (some c') ∧
    c'.map Command.bare = c.map Command.bare

/-- The line that was remembered last is repeated if it means the same when it is cut at once,
and otherwise not. -/
theorem repeats_iff (hfull : s.options.historyLevel = .full)
    (ha : s.options.aliases.get? ['!'] = none) (hplain : s.options.IsPlain)
    (hpending : s.pending = none) (hlast : s.options.history.getLast? = some text) :
    s.Repeats c w ↔ s.MeansAtOnce text c w := by
  have htext := textFor_of_pending hpending ['!','!']
  cases ht : Tokenizer.historyTokens { s.options with historyLevel := .off } (.inText false) none 0
    text with
  | error e =>
    have hparse := parseLine_previous_error hfull ha hlast ht s.settings s.lastSubstitution w
    constructor
    · rintro ⟨c',hc,-⟩
      rcases hp : s.process ['!','!'] w with ⟨⟨answer,s'⟩,w'⟩
      rw [hp] at hc
      cases hc
      obtain ⟨parsed,hparsed,-,-⟩ := process_command hp
      rw [htext,hparse] at hparsed
      cases hparsed
    · rintro ⟨c',hc,-⟩
      rw [readAtOnce,ht] at hc
      cases hc
  | ok tokens =>
    obtain ⟨q,hoptions,hsettings,hphase,hstack,hrest,hexpanded,hprint,-,hcommands⟩ :=
      parseLine_previous hfull ha hlast ht s.settings s.lastSubstitution
    have hself : s.options = { s.options with history := s.options.history } := rfl
    constructor
    · rintro ⟨c',hc,hbare⟩
      rcases hp : s.process ['!','!'] w with ⟨⟨answer,s'⟩,w'⟩
      rw [hp] at hc
      cases hc
      obtain ⟨parsed,hparsed,htree,-⟩ := process_command hp
      rw [htext] at hparsed
      obtain ⟨links,t,hlinks,hlink,-,-⟩ := parseLine_ok hparsed
      rw [hcommands] at hlinks
      obtain ⟨tokens',cs,hline⟩ := Parser.readsLine_of_commands hlinks
      cases (hstack.symm.trans (hline.stack_eq hrest))
      obtain ⟨links',c₂,t',hagain,-,hlink₂,hbare₂⟩ := hline.tree_replay
        (q := Parser.ofTokens tokens s.options s.settings) (hoptions ▸ hplain) hphase rfl
        (by rw [hoptions]; exact hself) hsettings.symm rfl rfl rfl hlinks (htree ▸ hlink)
      refine ⟨c₂,?_,hbare₂.trans hbare⟩
      rw [readAtOnce_tokens ht (hagain w)]
      exact hlink₂
    · rintro ⟨c',hc,hbare⟩
      rcases hp : (Parser.ofTokens tokens s.options s.settings).commands w with ⟨⟨e | links,t⟩,w'⟩
      · rw [readAtOnce,ht] at hc
        simp only [bind,StateT.bind,hp] at hc
        cases hc
      · rw [readAtOnce_tokens ht hp] at hc
        obtain ⟨tokens',cs,hline⟩ := Parser.readsLine_of_commands hp
        cases hline.stack_eq rfl
        obtain ⟨links',c₂,t',hagain,hsame,hlink₂,hbare₂⟩ := hline.tree_replay
          (q := q) hplain rfl hphase (hoptions.trans hself) hsettings rfl hstack hrest hp hc
        refine ⟨c₂,?_,hbare₂.trans hbare⟩
        have hparse := parseLine_commands ((congrFun hcommands w).trans (hagain w)) hlink₂
        rw [← htext] at hparse
        rw [process_ok hparse]
        unfold inputOf
        rw [hsame.printOnly_eq,hprint]
        rfl

/-- The session as it would be if no line had been remembered. -/
def forgetful (s : Shell σ) : Shell σ :=
  { s with options := { s.options with history := [] } }

/-- A line that names no earlier one and is not blank: it holds no exclamation mark and does
not begin with a caret. -/
def NamesNoLine (line : Text) : Prop :=
  '!' ∉ line ∧ line.head? ≠ some '^' ∧ Text.isAllBlank line = false

/-- What a line which has come to the command `c` means without any history. References in it
have to be such that the line which is remembered, with their texts in their places, still
means the same. -/
inductive MeansAlone (s' : Shell σ) (line : Text) (c : CommandTree) (w : σ) :
    Text → CommandTree → Prop
  | written : NamesNoLine line → MeansAlone s' line c w line c
  | remembered {text : Text} {tree : CommandTree} :
    s'.options.history.getLast? = some text →
      (s'.forgetful.process text w).1.1 = .ok (.command tree) →
      tree.map Command.bare = c.map Command.bare → MeansAlone s' line c w text tree

/-- Commands that the session, which cuts the text at once, does not take for anything else. -/
structure CutsAtOnce (s : Shell σ) (text : Text) (tree : CommandTree) : Prop where
  cutsAlike : ∀ c ∈ tree.walk, c.CutsAlike s.options s.settings text
  unmarked : ∀ c ∈ tree.walk.tail, ¬ c.OpensByMark

theorem MeansAtOnce.of_parseLine (hplain : s.options.IsPlain)
    {sub : Option History.Substitution} {parsed : ParsedLine}
    (hparse : parseLine line s.options s.settings sub w = (.ok parsed,w'))
    (htree : parsed.tree = some c)
    (hcalm : Tokenizer.Calm s.options.history (Tokenizer.new line sub))
    (hcuts : s.CutsAtOnce line c) (history : List Text) (w₂ : σ) :
    parsed.expanded = line ∧
      ({ s with options := { s.options with history } } : Shell σ).MeansAtOnce line c w₂ := by
  obtain ⟨links,t,hcommands,hlink,hexpanded,-⟩ := parseLine_ok hparse
  rw [htree] at hlink
  obtain ⟨hline,c',hbare,hread⟩ := readAtOnce_line hplain hcommands hcalm hlink
    hcuts.cutsAlike hcuts.unmarked history
  exact ⟨hexpanded.trans hline,c',by rw [hread w₂],hbare⟩

/-- The line `!!` repeats the previous one exactly if the text that is remembered means the same
when it is cut at once. So it does if the previous line means the same without any history
and is cut alike at once: no verb brings a grammar that reads the text differently, no
expression holds an equals sign, and no command behind an operator is opened by an alias of
one mark. -/
theorem process_previous (hfull : s.options.historyLevel = .full)
    (ha : s.options.aliases.get? ['!'] = none) (hplain : s.options.IsPlain)
    (hmax : 1 ≤ s.maxHistory) (hpending : s.pending = none)
    (h : s.process line w = ((.ok (.command c),s'),w')) :
    (∀ text, s'.options.history.getLast? = some text →
      (s'.Repeats c w' ↔ s'.MeansAtOnce text c w')) ∧
    ∀ text tree, MeansAlone s' line c w' text tree → s.CutsAtOnce text tree →
      s'.Repeats c w' := by
  obtain ⟨parsed,hparse,htree,rfl⟩ := process_command h
  rw [textFor_of_pending hpending] at hparse
  have hexact {text : Text} (hlast : (s.accept parsed).options.history.getLast? = some text) :
      (s.accept parsed).Repeats c w' ↔ (s.accept parsed).MeansAtOnce text c w' :=
    repeats_iff hfull ha hplain rfl hlast
  refine ⟨fun _ => hexact,fun text tree hmeans hcuts => ?_⟩
  cases hmeans with
  | written hnone =>
    have hcalm : Tokenizer.Calm s.options.history (Tokenizer.new line s.lastSubstitution) :=
      ⟨rfl,.inr ⟨hnone.1,fun _ => hnone.2.1⟩⟩
    obtain ⟨hexpanded,hmeans⟩ := MeansAtOnce.of_parseLine hplain hparse htree hcalm hcuts
      (s.accept parsed).options.history w'
    refine (hexact ?_).2 hmeans
    unfold accept
    simp only [hexpanded,hnone.2.2]
    exact getLast?_remember hmax s.options.history line
  | remembered hlast hread hsame =>
    rcases hp : (s.accept parsed).forgetful.process text w' with ⟨⟨answer,s₁⟩,w₁⟩
    rw [hp] at hread
    cases hread
    obtain ⟨parsed₀,hparse₀,htree₀,-⟩ := process_command hp
    obtain ⟨-,c',hread,hbare⟩ := MeansAtOnce.of_parseLine (s := (s.accept parsed).forgetful)
      hplain hparse₀ htree₀ ⟨rfl,.inl rfl⟩ ⟨hcuts.cutsAlike,hcuts.unmarked⟩
      (s.accept parsed).options.history w'
    exact (hexact hlast).2 ⟨c',hread,hbare.trans hsame⟩

/-- Sessions in which a quotation mark stands for a verb. -/
def markSays (history : List Text) : Options Unit where
  aliases := [(['\''],"say".toList)]
  history := history

section Lines

variable {ctx : LexContext} {previous : Option Token.Kind} {start : Nat} {history : List Text}

theorem scan_letter {σ : Type} {o : Options σ} {c : Char} (hc : c ∈ ['a','b']) {rest : Text}
    (hr : ∀ d ∈ rest.head?, Lexeme.isPlain d = false) :
    Lexeme.scan o ctx previous start c rest = .ok (Lexeme.run .word c []) := by
  have hclass : Text.isAlphanumeric c = true ∧ Text.isBlank c = false ∧
      Text.isDecimalDigit c = false ∧ Lexeme.isPlain c = true ∧ c ≠ '.' := by
    rcases List.mem_cons.1 hc with rfl | hc
    · decide +kernel
    · cases List.mem_singleton.1 hc
      decide +kernel
  obtain ⟨ha,hb,hd,hp,hdot⟩ := hclass
  have ht : rest.takeWhile Lexeme.isPlain = [] := by
    cases rest with
    | nil => rfl
    | cons d rest => rw [List.takeWhile_cons,hr d rfl]; rfl
  simp [Lexeme.scan,Options.charAlias?,ha,Lexeme.member?,hdot,hb,Lexeme.number?,hd,hp,ht]

theorem scan_semicolon (y : Char) :
    Lexeme.scan (markSays history) (.inText true) previous start ';' [y] =
      .ok (Lexeme.operator [';']) :=
  rfl

theorem scan_mark :
    Lexeme.scan (markSays history) {} previous start '\'' [] = .ok (Lexeme.single .alias '\'') := by
  have hmark : Text.isAlphanumeric '\'' = false := by decide +kernel
  have halias : (markSays history).charAlias? '\'' = some "say".toList := by
    unfold Options.charAlias?
    rw [hmark]
    rfl
  unfold Lexeme.scan
  rw [halias]
  rfl

theorem parseLine_pair {y : Char} {kind : Token.Kind}
    (hscan : Lexeme.scan (markSays []) {} (some .operator) 2 y [] = .ok (Lexeme.single kind y))
    (hverb : kind = .alias ∨ kind = .word ∧ y ≠ '\'') :
    ∃ tree k₁ k₂, parseLine ['a',';',y] (markSays []) (fun _ => none) none () =
        (.ok ⟨some tree,['a',';',y],false,none⟩,()) ∧ tree.walk = [k₁,k₂] ∧ k₁.kind = .game ∧
      k₂.kind = .game ∧ ∃ token, k₂.tokens = [token] ∧ token.kind = kind := by
  have hcalm {t : Tokenizer} (h : t.stack = []) : Tokenizer.Calm (markSays []).history t :=
    ⟨h,.inl rfl⟩
  let p := Parser.new ['a',';',y] (markSays []) (fun _ => none) none
  let last : Token := ⟨kind,[y],.input,2,2 + Text.byteSize [y],none⟩
  let t₁ : Tokenizer := ⟨['a'],[';',y],[],some .word,none,false,false,['a']⟩
  let t₂ : Tokenizer := ⟨['a',';'],[y],[],some .operator,none,false,false,['a',';']⟩
  let t₃ : Tokenizer := ⟨['a',';',y],[],[],some kind,none,false,false,['a',';',y]⟩
  let c₁ : OpenCommand Unit := ⟨.opened ⟨.word,['a'],.input,0,1,none⟩ .game,markSays []⟩
  let c₂ : OpenCommand Unit := ⟨.opened last .game,markSays []⟩
  let p₁ : Parser Unit := { p with tokenizer := t₁, phase := .inCommand c₁ }
  let p₂ : Parser Unit := { p with tokenizer := t₂, phase := .closed }
  let p₃ : Parser Unit := { p with tokenizer := t₃, phase := .inCommand c₂ }
  have hn₁ : p.restart.tokenizer.next p.restart.grammar p.restart.context =
      (.ok (some ⟨.word,['a'],.input,0,1,none⟩),t₁) :=
    (hcalm rfl).next_lexeme rfl (scan_letter (.head _) (by rintro d ⟨⟩; rfl))
  have hn₂ : p₁.tokenizer.next p₁.grammar p₁.context =
      (.ok (some ⟨.operator,[';'],.input,1,2,none⟩),t₂) :=
    (hcalm rfl).next_lexeme rfl (scan_semicolon y)
  have hscan' : Lexeme.scan (markSays []) p₂.restart.context t₂.previous t₂.index y [] =
      .ok (Lexeme.single kind y) := hscan
  have hn₃ : p₂.restart.tokenizer.next p₂.restart.grammar p₂.restart.context =
      (.ok (some last),t₃) :=
    (hcalm (t := t₂) rfl).next_lexeme rfl hscan'
  have hopen : OpenCommand.ofVerb (markSays []) (fun _ => none) last = c₂ := by
    rcases hverb with rfl | ⟨rfl,hy⟩
    · rfl
    · have hno : (markSays []).aliases.contains [y] = false := by
        simp [markSays,Table.contains,Table.get?,hy]
      simp [OpenCommand.ofVerb,last,hno,c₂]
  have hs₃ : Parser.step { p₂.restart with tokenizer := t₃, phase := .awaitingVerb none } last =
      .ok (.goOn (.inCommand c₂)) := by
    rw [← hopen]
    rcases hverb with rfl | ⟨rfl,-⟩ <;> rfl
  have hfirst : p.restart.read = (.ok (some (c₁,some .sequence)),p₂) :=
    (Parser.read_goesOn hn₁ rfl).trans (Parser.read_closes hn₂ rfl)
  have hsecond : p₂.restart.read =
      (.ok (some (c₂,none)),{ p with tokenizer := t₃, phase := .done }) :=
    (Parser.read_goesOn hn₃ hs₃).trans
      (Parser.read_ends (p := p₃) (c := some c₂) (Tokenizer.next_none rfl rfl) rfl)
  obtain ⟨v₁,as₁,g₁,hk₁⟩ := Command.compile_keeps c₁.options c₁.command ()
  obtain ⟨v₂,as₂,g₂,hk₂⟩ := Command.compile_keeps c₂.options c₂.command ()
  have hcommands : p.commands () = ((.ok [((c₁.command.compile c₁.options ()).1,some .sequence),
      ((c₂.command.compile c₂.options ()).1,none)],t₃),()) := by
    rw [Parser.commands_closed hfirst,Parser.commands_last hsecond]
    rfl
  obtain ⟨tree,hlink⟩ : ∃ tree, linkLine [((c₁.command.compile c₁.options ()).1,some .sequence),
      ((c₂.command.compile c₂.options ()).1,none)] = .ok (some tree) :=
    CommandTree.link_ok (by simp) rfl rfl
  obtain ⟨l,ls,rest,hlinks,hwalk,hperm⟩ := CommandTree.walk_of_linkLine hlink
  cases hlinks
  rw [List.perm_singleton.1 hperm] at hwalk
  refine ⟨tree,_,_,parseLine_commands hcommands hlink,hwalk,?_,?_,last,?_,rfl⟩
  · rw [hk₁]
    rfl
  · rw [hk₂]
    rfl
  · rw [hk₂]
    rfl

end Lines

/-- A line of two verbs is repeated, although there is an alias of one mark. -/
theorem process_previous_pair :
    let s : Shell Unit := { options := markSays [] }
    ∃ c s', s.process ['a',';','b'] () = ((.ok (.command c),s'),()) ∧ s'.Repeats c () := by
  obtain ⟨tree,k₁,k₂,hparse,hwalk,hkind₁,hkind₂,token,htokens,hk⟩ :=
    parseLine_pair (y := 'b') (scan_letter (.tail _ (.head _)) nofun) (.inr ⟨rfl,by decide⟩)
  have hprocess := process_ok (s := { options := markSays [] }) hparse
  have hcuts : CutsAtOnce { options := markSays [] } ['a',';','b'] tree := by
    refine ⟨?_,?_⟩
    · rw [hwalk]
      intro k hk
      have hgame : k.kind = .game := by
        rcases List.mem_cons.1 hk with rfl | hk
        · exact hkind₁
        · rw [List.mem_singleton.1 hk]
          exact hkind₂
      unfold Command.CutsAlike
      rw [hgame]
      trivial
    · rw [hwalk]
      rintro k hmem ⟨first,c,hhead,halias,-⟩
      cases List.mem_singleton.1 hmem
      rw [htokens] at hhead
      cases hhead
      rw [hk] at halias
      cases halias
  exact ⟨tree,_,hprocess,(process_previous rfl (by decide) (fun _ _ h => by cases h) (by decide) rfl
    hprocess).2 _ tree (.written ⟨by decide,by decide,by decide⟩) hcuts⟩

/-- Not every line is repeated: where the second of two commands is opened by an alias of one
mark, the mark is taken for the beginning of a string when the line comes back. -/
theorem not_process_previous :
    ¬ ∀ (s : Shell Unit) (line : Text) (c : CommandTree) (s' : Shell Unit),
      s.options.historyLevel = .full → s.options.aliases.get? ['!'] = none → s.options.IsPlain →
      1 ≤ s.maxHistory → s.pending = none → s.process line () = ((.ok (.command c),s'),()) →
      s'.Repeats c () := by
  intro hall
  obtain ⟨tree,k₁,k₂,hparse,-⟩ := parseLine_pair scan_mark (.inl rfl)
  have ha : (markSays []).aliases.get? ['!'] = none := by decide
  have hplain (history : List Text) : (markSays history).IsPlain := fun _ _ h => by cases h
  have hrepeats := hall _ _ _ _ rfl ha (hplain []) (by decide) rfl
    (process_ok (s := { options := markSays [] }) hparse)
  have hlast : (markSays [['a',';','\'']]).history.getLast? = some ['a',';','\''] := rfl
  obtain ⟨c',hc,-⟩ := (repeats_iff rfl ha (hplain _) rfl hlast).1 hrepeats
  let o : Options Unit := { markSays [['a',';','\'']] with historyLevel := .off }
  have hmark (start : Nat) : ∃ e, Tokenizer.historyTokens o (.inText true) (some .operator) start
      ['\''] = .error e := by
    refine ⟨.parse (.unterminatedString '\'' start),?_⟩
    rw [Tokenizer.historyTokens]
    rfl
  have hoperator (start : Nat) : ∃ e, Tokenizer.historyTokens o (.inText true) (some .word) start
      [';','\''] = .error e := by
    have hscan : Lexeme.scan o (.inText true) (some .word) start ';' ['\''] =
        .ok (Lexeme.operator [';']) := rfl
    obtain ⟨stop,hcut⟩ := Tokenizer.historyTokens_cons hscan
    obtain ⟨e,he⟩ := hmark stop
    exact ⟨e,hcut.trans (congrArg _ he)⟩
  have hline : ∃ e, Tokenizer.historyTokens o (.inText false) none 0 ['a',';','\''] =
      .error e := by
    have hscan : Lexeme.scan (markSays []) (.inText false) none 0 'a' [';','\''] =
        .ok (Lexeme.run .word 'a' []) := scan_letter (.head _) (by rintro d ⟨⟩; rfl)
    obtain ⟨stop,hcut⟩ := Tokenizer.historyTokens_cons (o := o) hscan
    obtain ⟨e,he⟩ := hoperator stop
    exact ⟨e,hcut.trans (congrArg _ he)⟩
  obtain ⟨e,he⟩ := hline
  have hread : readAtOnce ['a',';','\''] (markSays [['a',';','\'']]) (fun _ => none) =
      pure (.error e) := by
    rw [readAtOnce,he]
  cases hc.symm.trans (congrFun (congrArg (fun m u => (m u).1) hread) ())

end Shell

end Realm
