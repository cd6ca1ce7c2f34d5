import Realm.Proofs.Command.Linking
import Realm.Proofs.Command.Reading
import Realm.Proofs.Command.Spelling

/-! Command lines in which every text stands in double quotes. Whatever the texts are, the
parser finds them again, each in its place: quoting protects blanks, operators, references
and file expressions alike. -/
namespace Realm.Quoting

def protect (c : Char) : Text :=
  if c = '"' ∨ c = '\\' then ['\\',c] else [c]

def quote (t : Text) : Text :=
  '"' :: t.flatMap protect ++ ['"']

theorem quote_not_blank (t rest : Text) :
    ∀ c ∈ (quote t ++ rest).head?, Text.isBlank c = false := by
  intro c hc
  cases hc
  decide

@[simp] theorem quotedBody?_protect (t rest : Text) :
    Lexeme.quotedBody? '"' (t.flatMap protect ++ '"' :: rest) =
      some (t,(t.flatMap protect).length + 1) := by
  induction t with
  | nil => simp [Lexeme.quotedBody?]
  | cons c t ih =>
    rw [List.flatMap_cons,List.append_assoc]
    by_cases h : c = '"' ∨ c = '\\'
    · have hc : protect c = ['\\',c] := if_pos h
      simp only [hc,List.cons_append,List.nil_append,Lexeme.quotedBody?,ih,Option.map_some,
        if_pos h,List.length_cons]
    · have hc : protect c = [c] := if_neg h
      have hq : c ≠ '"' := fun he => h (.inl he)
      have hb : c ≠ '\\' := fun he => h (.inr he)
      rw [hc,List.singleton_append,Lexeme.quotedBody?]
      · simp [ih,hq]
      · rintro rfl
        exact absurd rfl hb
      · rintro d s rfl
        exact absurd rfl hb

/-- What may follow a verb: a word, or a redirection with its file. -/
inductive Item where
  | word (text : Text)
  | redirect (kind : Redirect.Kind) (target : Text)

namespace Item

def arg? : Item → Option Text
  | word t => some t
  | redirect _ _ => none

def redirect? : Item → Option Redirect
  | word _ => none
  | redirect kind target => some ⟨kind,target⟩

/-- An item in quotes, with the space before it. -/
def text : Item → Text
  | word t => ' ' :: quote t
  | redirect kind target => ' ' :: kind.text ++ ' ' :: quote target

end Item

/-- A command that is to be written down. -/
structure Phrase where
  verb : Text
  items : List Item

/-- A command with everything in quotes and single spaces between. -/
def Phrase.text (p : Phrase) : Text :=
  quote p.verb ++ p.items.flatMap Item.text

/-- A line of commands, each but the last with the operator behind it. -/
def lineText (commands : List (Phrase × Operator)) (last : Phrase) : Text :=
  commands.flatMap (fun c => c.1.text ++ ' ' :: c.2.text ++ [' ']) ++ last.text

/-- Grammars that read quotes, operators and redirections, with no alias in the way. -/
structure Reads {σ : Type} (o : Options σ) : Prop where
  quoting : o.allowQuoting = true
  pipelining : o.allowPipelining = true
  fileAccess : o.allowFileAccess = true
  quote_free : o.aliases.get? ['"'] = none
  space_free : o.aliases.get? [' '] = none

section Lexemes

variable {σ : Type} {o : Options σ} (ctx : LexContext) (previous : Option Token.Kind)
  (start : Nat)

/-- A mark of the grammar that is neither blank, digit nor dot is read as what it is. -/
theorem scan_special {c : Char} {t : Text}
    (ha : ctx.inCommand = true ∨ o.charAlias? c = none)
    (hc : Text.isBlank c = false ∧ Text.isDecimalDigit c = false ∧ Lexeme.isPlain c = false ∧
      c ≠ '.') :
    Lexeme.scan o ctx previous start c t = Lexeme.special o.toGrammar ctx start c t := by
  obtain ⟨hb,hd,hp,hdot⟩ := hc
  have hf : (!ctx.inCommand && (o.charAlias? c).isSome) = false := by
    cases ha with
    | inl h => simp [h]
    | inr h => simp [h]
  simp [Lexeme.scan,hf,Lexeme.member?,hdot,hb,Lexeme.number?,hd,hp]

theorem Reads.scan_quote (ho : Reads o) (t rest : Text) :
    ∃ h, Lexeme.scan o ctx previous start '"' (t.flatMap protect ++ '"' :: rest) =
      .ok ⟨.string,t,(quote t).length,h⟩ := by
  have hw : (t.flatMap protect).length + 1 + 1 = (quote t).length := by simp [quote]
  refine ⟨by omega,?_⟩
  rw [scan_special _ _ _ (.inr (Options.charAlias?_eq_none ho.quote_free)) (by decide +kernel)]
  simp only [Lexeme.special,ho.quoting,if_true,Lexeme.quoted,quotedBody?_protect,hw]

theorem Reads.scan_space (ho : Reads o) {rest : Text}
    (hr : ∀ c ∈ rest.head?, Text.isBlank c = false) :
    Lexeme.scan o ctx previous start ' ' rest = .ok ⟨.blank,[' '],1,by decide⟩ := by
  have ha : o.charAlias? ' ' = none := Options.charAlias?_eq_none ho.space_free
  have hb : Text.isBlank ' ' = true := by decide
  have ht : rest.takeWhile Text.isBlank = [] := by
    cases rest with
    | nil => rfl
    | cons c rest => simp [hr c rfl]
  simp [Lexeme.scan,ha,Lexeme.member?,hb,ht,Lexeme.run]

theorem Reads.scan_redirect (ho : Reads o) (hctx : ctx.inCommand = true)
    (kind : Redirect.Kind) (rest : Text) :
    ∃ c t h, kind.text = c :: t ∧ Lexeme.scan o ctx previous start c (t ++ ' ' :: rest) =
      .ok ⟨.operator,kind.text,kind.text.length,h⟩ := by
  cases kind <;> refine ⟨_,_,by decide,rfl,?_⟩ <;>
    rw [scan_special _ _ _ (.inl hctx) (by decide +kernel)] <;>
    simp [Lexeme.special,ho.fileAccess,Lexeme.operator,Redirect.Kind.text]

theorem Reads.scan_operator (ho : Reads o) (hctx : ctx.inCommand = true)
    (operator : Operator) (rest : Text) :
    ∃ c t h, operator.text = c :: t ∧ Lexeme.scan o ctx previous start c (t ++ ' ' :: rest) =
      .ok ⟨.operator,operator.text,operator.text.length,h⟩ := by
  cases operator <;> refine ⟨_,_,by decide,rfl,?_⟩ <;>
    rw [scan_special _ _ _ (.inl hctx) (by decide +kernel)] <;>
    simp [Lexeme.special,ho.pipelining,Lexeme.operator,Operator.text]

end Lexemes

/-- A reader that has come past `done` without a change, and has `rest` before it. -/
structure At (sub : Option History.Substitution) (done rest : Text) (t : Tokenizer) : Prop where
  rest_eq : t.rest = rest
  stack_eq : t.stack = []
  expanded_eq : t.expanded = done
  printOnly_eq : t.printOnly = false
  substitution_eq : t.lastSubstitution = sub

namespace At

variable {σ : Type} {o : Options σ} (ctx : LexContext) {sub : Option History.Substitution}
  {done rest : Text} {t : Tokenizer}

theorem next_lexeme {a b : Text} {c : Char} (lexeme : Lexeme) (ht : At sub done (c :: a ++ b) t)
    (hc : c ≠ '^' ∧ c ≠ '!')
    (hs : Lexeme.scan o ctx t.previous t.index c (a ++ b) = .ok lexeme)
    (hw : lexeme.width = a.length + 1) :
    ∃ token t', t.next o ctx = (.ok (some token),t') ∧
      token.spelling = (lexeme.kind,lexeme.value) ∧ At sub (done ++ c :: a) b t' := by
  obtain ⟨hr,hstack,he,hp,hsub⟩ := ht
  have hd : t.dispatch o ctx c (a ++ b) =
      (.ok (t.token lexeme.kind lexeme.value lexeme.width),
        t.skip lexeme.width (t.rest.take lexeme.width)) := by
    simp [Tokenizer.dispatch,hc.1,hc.2,hs]
  refine ⟨_,_,Tokenizer.next_dispatch hstack hr hd,rfl,?_⟩
  constructor
  · simp [Tokenizer.skip,hr,hw]
  · exact hstack
  · simp [Tokenizer.skip,hr,he,hw]
  · exact hp
  · exact hsub

theorem next_quote (ho : Reads o) {x : Text} (ht : At sub done (quote x ++ rest) t) :
    ∃ token t', t.next o ctx = (.ok (some token),t') ∧ token.spelling = (.string,x) ∧
      At sub (done ++ quote x) rest t' := by
  obtain ⟨h,hs⟩ := ho.scan_quote ctx t.previous t.index x rest
  have ha : quote x ++ rest = '"' :: (x.flatMap protect ++ ['"']) ++ rest := rfl
  rw [ha] at ht
  exact ht.next_lexeme ctx ⟨.string,x,(quote x).length,h⟩ (by decide)
    (by simpa using hs) rfl

theorem next_space (ho : Reads o) (hr : ∀ c ∈ rest.head?, Text.isBlank c = false)
    (ht : At sub done (' ' :: rest) t) :
    ∃ token t', t.next o ctx = (.ok (some token),t') ∧ token.spelling = (.blank,[' ']) ∧
      At sub (done ++ [' ']) rest t' :=
  ht.next_lexeme ctx _ (a := []) (by decide) (ho.scan_space ctx _ _ hr) rfl

theorem next_redirect (ho : Reads o) (hctx : ctx.inCommand = true) (kind : Redirect.Kind)
    (ht : At sub done (kind.text ++ ' ' :: rest) t) :
    ∃ token t', t.next o ctx = (.ok (some token),t') ∧
      token.spelling = (.operator,kind.text) ∧ At sub (done ++ kind.text) (' ' :: rest) t' := by
  obtain ⟨c,a,h,hk,hs⟩ :=
    ho.scan_redirect ctx t.previous t.index hctx kind rest
  have hc : c ≠ '^' ∧ c ≠ '!' := by
    cases kind <;> cases hk <;> decide
  have hw : kind.text.length = a.length + 1 := by rw [hk]; rfl
  have ha (s : Text) : c :: a ++ s = kind.text ++ s := by rw [hk]
  obtain ⟨token,t',hn,hspell,ht'⟩ := next_lexeme ctx _ ((ha _).symm ▸ ht) hc hs hw
  exact ⟨token,t',hn,hspell,hk ▸ ht'⟩

theorem next_operator (ho : Reads o) (hctx : ctx.inCommand = true) (operator : Operator)
    (ht : At sub done (operator.text ++ ' ' :: rest) t) :
    ∃ token t', t.next o ctx = (.ok (some token),t') ∧
      token.spelling = (.operator,operator.text) ∧
      At sub (done ++ operator.text) (' ' :: rest) t' := by
  obtain ⟨c,a,h,hk,hs⟩ :=
    ho.scan_operator ctx t.previous t.index hctx operator rest
  have hc : c ≠ '^' ∧ c ≠ '!' := by
    cases operator <;> cases hk <;> decide
  have hw : operator.text.length = a.length + 1 := by rw [hk]; rfl
  have ha (s : Text) : c :: a ++ s = operator.text ++ s := by rw [hk]
  obtain ⟨token,t',hn,hspell,ht'⟩ := next_lexeme ctx _ ((ha _).symm ▸ ht) hc hs hw
  exact ⟨token,t',hn,hspell,hk ▸ ht'⟩

end At

def Item.spelling : Item → List (Token.Kind × Text)
  | word t => [(.blank,[' ']),(.string,t)]
  | redirect kind _ => [(.blank,[' ']),(.operator,kind.text)]

section Parsing

variable {σ : Type} {o : Options σ} {sub : Option History.Substitution} {done rest : Text}
  {p : Parser σ} {c : OpenCommand σ} {verb : Text} {items : List Item}

/-- A parser without settings for any verb, at a place of a line. -/
structure Place (o : Options σ) (sub : Option History.Substitution) (done rest : Text)
    (p : Parser σ) : Prop where
  options_eq : p.options = o
  settings_eq : p.settings = fun _ => none
  reader : At sub done rest p.tokenizer

/-- A command of which the verb and some items have been read, and then a `tail`. -/
structure Holds (o : Options σ) (verb : Text) (items : List Item)
    (tail : List (Token.Kind × Text)) (c : OpenCommand σ) : Prop where
  options_eq : c.options = o
  kind_eq : c.command.kind = .game
  tokens_eq : c.command.tokens.map Token.spelling =
    (.string,verb) :: items.flatMap Item.spelling ++ tail
  redirects_eq : c.command.redirects = items.filterMap Item.redirect?

/-- Phases in which a command is open and a word or a file name of it has just ended. -/
inductive Rests : OpenCommand σ → ParserPhase σ → Prop
  | inCommand (c : OpenCommand σ) : Rests c (.inCommand c)
  | redirected {c : OpenCommand σ} {pending : PendingRedirect} :
    pending.target.isSome → Rests (c.redirect pending) (.awaitingRedirectTarget c pending)

theorem Rests.settle {phase : ParserPhase σ} {token : Token} (h : Rests c phase)
    (hk : token.kind = .blank) : Parser.settle phase token = .inCommand c := by
  cases h with
  | inCommand => rfl
  | redirected ht => simp [Parser.settle,ht,hk]

theorem Rests.atEnd {phase : ParserPhase σ} (h : Rests c phase) :
    Parser.atEnd phase = .ok (some c) := by
  cases h with
  | inCommand => rfl
  | @redirected c pending ht =>
    obtain ⟨target,ht⟩ := Option.isSome_iff_exists.1 ht
    simp [Parser.atEnd,ht]

theorem Rests.grammar (h : Rests c p.phase) : p.grammar = c.options := by
  unfold Parser.grammar
  cases hp : p.phase with
  | inCommand d => rw [hp] at h; cases h; rfl
  | awaitingRedirectTarget d pending => rw [hp] at h; cases h; rfl
  | awaitingVerb | closed | done => rw [hp] at h; cases h

theorem Rests.context (h : Rests c p.phase) : p.context = c.context := by
  unfold Parser.context
  cases hp : p.phase with
  | inCommand d => rw [hp] at h; cases h; rfl
  | awaitingRedirectTarget d pending => rw [hp] at h; cases h; rfl
  | awaitingVerb | closed | done => rw [hp] at h; cases h

theorem Place.goesOn (phase : ParserPhase σ) {token : Token} {t : Tokenizer}
    {done' rest' : Text} (hp : Place o sub done rest p)
    (hn : p.tokenizer.next p.grammar p.context = (.ok (some token),t))
    (ht : At sub done' rest' t)
    (hs : Parser.step { p with tokenizer := t, phase := Parser.settle p.phase token } token =
      .ok (.goOn phase)) :
    ∃ p', p.read = p'.read ∧ p'.phase = phase ∧ Place o sub done' rest' p' :=
  ⟨_,Parser.read_goesOn hn hs,rfl,hp.options_eq,hp.settings_eq,ht⟩

theorem read_gap (ho : Reads o) (hp : Place o sub done (' ' :: rest) p)
    (hr : ∀ c ∈ rest.head?, Text.isBlank c = false) (hphase : p.phase = .awaitingVerb none) :
    ∃ p', p.read = p'.read ∧ p'.phase = .awaitingVerb none ∧
      Place o sub (done ++ [' ']) rest p' := by
  have hg : p.grammar = o := by simp [Parser.grammar,hphase,ParserPhase.current?,hp.options_eq]
  obtain ⟨token,t,hn,hk,ht⟩ := hp.reader.next_space p.context ho hr
  have hb : token.kind = .blank := Token.kind_congr (t := .ofSpelling (.blank,[' '])) hk
  exact hp.goesOn _ (hg ▸ hn) ht (Parser.step_passes hphase hb t)

theorem read_verb (ho : Reads o) (hp : Place o sub done (quote verb ++ rest) p)
    (hphase : p.phase = .awaitingVerb none) :
    ∃ c p', p.read = p'.read ∧ p'.phase = .inCommand c ∧ Holds o verb [] [] c ∧
      Place o sub (done ++ quote verb) rest p' := by
  have hg : p.grammar = o := by simp [Parser.grammar,hphase,ParserPhase.current?,hp.options_eq]
  obtain ⟨token,t,hn,hk,ht⟩ := hp.reader.next_quote p.context ho
  have hs : token.kind = .string := Token.kind_congr (t := .ofSpelling (.string,verb)) hk
  let c : OpenCommand σ := ⟨.opened token .game,o⟩
  have hc : OpenCommand.ofVerb p.options p.settings token = c := by
    simp [OpenCommand.ofVerb,hs,hp.settings_eq,hp.options_eq,c]
  have hverb : token.isVerb = true := by rw [Token.isVerb,hs]
  obtain ⟨p',hread,hphase',hp'⟩ := hp.goesOn (.inCommand c) (hg ▸ hn) ht
    (hc ▸ Parser.step_opens hphase hverb t)
  exact ⟨c,p',hread,hphase',⟨rfl,rfl,by simp [c,Command.opened,hk],rfl⟩,hp'⟩

theorem Holds.push {tail : List (Token.Kind × Text)} {token : Token}
    {s : Token.Kind × Text} (hc : Holds o verb items tail c) (hs : token.spelling = s) :
    Holds o verb items (tail ++ [s]) (c.push token) := by
  obtain ⟨hopt,hkind,htok,hred⟩ := hc
  refine ⟨hopt,hkind,?_,hred⟩
  show (c.command.tokens ++ [token]).map Token.spelling = _
  rw [List.map_append,htok,List.map_singleton,hs]
  simp only [List.append_assoc]

theorem Holds.word {x : Text} (hc : Holds o verb items ((Item.word x).spelling) c) :
    Holds o verb (items ++ [.word x]) [] c := by
  obtain ⟨hopt,hkind,htok,hred⟩ := hc
  refine ⟨hopt,hkind,?_,?_⟩
  · simp [htok]
  · rw [hred,List.filterMap_append]
    exact (List.append_nil _).symm

theorem Holds.redirect {pending : PendingRedirect} {target : Text}
    (hc : Holds o verb items [(.blank,[' '])] c)
    (hk : pending.token.spelling = (.operator,pending.kind.text))
    (ht : pending.target = some target) :
    Holds o verb (items ++ [.redirect pending.kind target]) [] (c.redirect pending) := by
  obtain ⟨hopt,hkind,htok,hred⟩ := hc
  refine ⟨hopt,hkind,?_,?_⟩
  · show (c.command.tokens ++ [{ pending.token with redirectTarget := _ }]).map _ = _
    have hs : Token.spelling { pending.token with redirectTarget := some (pending.target.getD []) } =
        (.operator,pending.kind.text) := hk
    simp [htok,hs,Item.spelling]
  · show c.command.redirects ++ [⟨pending.kind,pending.target.getD []⟩] = _
    rw [hred,ht,List.filterMap_append]
    rfl

theorem read_space (ho : Reads o) (hp : Place o sub done (' ' :: rest) p)
    (hr : ∀ c ∈ rest.head?, Text.isBlank c = false) (hrest : Rests c p.phase)
    (hc : Holds o verb items [] c) :
    ∃ c' p', p.read = p'.read ∧ p'.phase = .inCommand c' ∧
      Holds o verb items [(.blank,[' '])] c' ∧ Place o sub (done ++ [' ']) rest p' := by
  obtain ⟨token,t,hn,hk,ht⟩ := hp.reader.next_space p.context ho hr
  have hb : token.kind = .blank := Token.kind_congr (t := .ofSpelling (.blank,[' '])) hk
  have hg : p.grammar = o := hrest.grammar.trans hc.options_eq
  obtain ⟨p',hread,hphase,hp'⟩ := hp.goesOn (.inCommand (c.push token)) (hg ▸ hn) ht
    (by simp [Parser.step,hrest.settle hb,Parser.stepInCommand,hb])
  exact ⟨_,p',hread,hphase,hc.push hk,hp'⟩

theorem read_word (ho : Reads o) {x : Text} (hp : Place o sub done (quote x ++ rest) p)
    (hphase : p.phase = .inCommand c) (hc : Holds o verb items [(.blank,[' '])] c) :
    ∃ c' p', p.read = p'.read ∧ p'.phase = .inCommand c' ∧
      Holds o verb (items ++ [.word x]) [] c' ∧ Place o sub (done ++ quote x) rest p' := by
  have hrest : Rests c p.phase := hphase ▸ .inCommand c
  obtain ⟨token,t,hn,hk,ht⟩ := hp.reader.next_quote p.context ho
  have hs : token.kind = .string := Token.kind_congr (t := .ofSpelling (.string,x)) hk
  have hg : p.grammar = o := hrest.grammar.trans hc.options_eq
  obtain ⟨p',hread,hphase',hp'⟩ := hp.goesOn (.inCommand (c.push token)) (hg ▸ hn) ht
    (by simp [Parser.step,hphase,Parser.settle,Parser.stepInCommand,hs])
  exact ⟨_,p',hread,hphase',(hc.push hk).word,hp'⟩

theorem read_redirect (ho : Reads o) {kind : Redirect.Kind} {target : Text}
    (hp : Place o sub done (kind.text ++ ' ' :: (quote target ++ rest)) p)
    (hphase : p.phase = .inCommand c) (hc : Holds o verb items [(.blank,[' '])] c) :
    ∃ c' p', p.read = p'.read ∧ Rests c' p'.phase ∧
      Holds o verb (items ++ [.redirect kind target]) [] c' ∧
      Place o sub (done ++ kind.text ++ [' '] ++ quote target) rest p' := by
  have hrest : Rests c p.phase := hphase ▸ .inCommand c
  have hgrammar : p.grammar = o := hrest.grammar.trans hc.options_eq
  have hctx : p.context.inCommand = true := by rw [hrest.context]; rfl
  obtain ⟨token,t,hn,hk,ht⟩ := hp.reader.next_redirect p.context ho hctx kind
  have hop : token.kind = .operator :=
    Token.kind_congr (t := .ofSpelling (.operator,kind.text)) hk
  have hval : token.value = kind.text :=
    Token.value_congr (t := .ofSpelling (.operator,kind.text)) hk
  obtain ⟨p₁,hread₁,hphase₁,hp₁⟩ :=
    hp.goesOn (.awaitingRedirectTarget c ⟨token,kind,none⟩) (hgrammar ▸ hn) ht (by
      simp [Parser.step,hphase,Parser.settle,Parser.stepInCommand,hop,hval])
  -- The reader stays with the grammar of the command until the file name is there.
  have hg₁ : p₁.grammar = o := by
    simp [Parser.grammar,hphase₁,ParserPhase.current?,hc.options_eq]
  obtain ⟨blank,t₁,hn₁,hk₁,ht₁⟩ := hp₁.reader.next_space p₁.context ho
    (quote_not_blank target rest)
  have hb : blank.kind = .blank := Token.kind_congr (t := .ofSpelling (.blank,[' '])) hk₁
  obtain ⟨p₂,hread₂,hphase₂,hp₂⟩ :=
    hp₁.goesOn (.awaitingRedirectTarget c ⟨token,kind,none⟩) (hg₁ ▸ hn₁) ht₁ (by
      simp [Parser.step,hphase₁,Parser.settle,Parser.stepRedirectTarget,hb])
  have hg₂ : p₂.grammar = o := by
    simp [Parser.grammar,hphase₂,ParserPhase.current?,hc.options_eq]
  obtain ⟨string,t₂,hn₂,hk₂,ht₂⟩ := hp₂.reader.next_quote p₂.context ho
  have hs : string.kind = .string := Token.kind_congr (t := .ofSpelling (.string,target)) hk₂
  have hraw : string.rawText = target :=
    Token.rawText_congr (t := .ofSpelling (.string,target)) hk₂
  obtain ⟨p₃,hread₃,hphase₃,hp₃⟩ :=
    hp₂.goesOn (.awaitingRedirectTarget c ⟨token,kind,some target⟩) (hg₂ ▸ hn₂) ht₂
      (by simp [Parser.step,hphase₂,Parser.settle,Parser.stepRedirectTarget,hs,hraw])
  let pending : PendingRedirect := ⟨token,kind,some target⟩
  have hc' : Holds o verb (items ++ [.redirect pending.kind target]) [] (c.redirect pending) :=
    hc.redirect hk rfl
  refine ⟨c.redirect pending,p₃,hread₁.trans (hread₂.trans hread₃),?_,hc',hp₃⟩
  rw [hphase₃]
  exact .redirected rfl

theorem read_item (ho : Reads o) (item : Item) (hp : Place o sub done (item.text ++ rest) p)
    (hrest : Rests c p.phase) (hc : Holds o verb items [] c) :
    ∃ c' p', p.read = p'.read ∧ Rests c' p'.phase ∧ Holds o verb (items ++ [item]) [] c' ∧
      Place o sub (done ++ item.text) rest p' := by
  cases item with
  | word x =>
    obtain ⟨c₁,p₁,hread₁,hphase₁,hc₁,hp₁⟩ := read_space ho hp (quote_not_blank x rest) hrest hc
    obtain ⟨c₂,p₂,hread₂,hphase₂,hc₂,hp₂⟩ := read_word ho hp₁ hphase₁ hc₁
    refine ⟨c₂,p₂,hread₁.trans hread₂,hphase₂ ▸ .inCommand c₂,hc₂,?_⟩
    simpa [Item.text] using hp₂
  | redirect kind target =>
    have hp : Place o sub done (' ' :: (kind.text ++ ' ' :: (quote target ++ rest))) p := by
      simpa [Item.text] using hp
    have hkind : ∀ d ∈ (kind.text ++ ' ' :: (quote target ++ rest)).head?,
        Text.isBlank d = false := by
      cases kind <;> rintro d ⟨⟩ <;> decide
    obtain ⟨c₁,p₁,hread₁,hphase₁,hc₁,hp₁⟩ := read_space ho hp hkind hrest hc
    obtain ⟨c₂,p₂,hread₂,hrest₂,hc₂,hp₂⟩ := read_redirect ho hp₁ hphase₁ hc₁
    refine ⟨c₂,p₂,hread₁.trans hread₂,hrest₂,hc₂,?_⟩
    simpa [Item.text] using hp₂

theorem read_items (ho : Reads o) (more : List Item)
    (hp : Place o sub done (more.flatMap Item.text ++ rest) p)
    (hrest : Rests c p.phase) (hc : Holds o verb items [] c) :
    ∃ c' p', p.read = p'.read ∧ Rests c' p'.phase ∧ Holds o verb (items ++ more) [] c' ∧
      Place o sub (done ++ more.flatMap Item.text) rest p' := by
  induction more generalizing p c items done with
  | nil => exact ⟨c,p,rfl,hrest,by simpa using hc,by simpa using hp⟩
  | cons item more ih =>
    rw [List.flatMap_cons,List.append_assoc] at hp
    obtain ⟨c₁,p₁,hread₁,hrest₁,hc₁,hp₁⟩ := read_item ho item hp hrest hc
    obtain ⟨c₂,p₂,hread₂,hrest₂,hc₂,hp₂⟩ := ih hp₁ hrest₁ hc₁
    refine ⟨c₂,p₂,hread₁.trans hread₂,hrest₂,by simpa using hc₂,?_⟩
    rw [List.flatMap_cons,← List.append_assoc]
    exact hp₂

theorem read_phrase (ho : Reads o) (phrase : Phrase)
    (hp : Place o sub done (phrase.text ++ rest) p) (hphase : p.phase = .awaitingVerb none) :
    ∃ c p', p.read = p'.read ∧ Rests c p'.phase ∧ Holds o phrase.verb phrase.items [] c ∧
      Place o sub (done ++ phrase.text) rest p' := by
  rw [Phrase.text,List.append_assoc] at hp
  obtain ⟨c₁,p₁,hread₁,hphase₁,hc₁,hp₁⟩ := read_verb ho hp hphase
  obtain ⟨c₂,p₂,hread₂,hrest₂,hc₂,hp₂⟩ :=
    read_items ho phrase.items hp₁ (hphase₁ ▸ .inCommand c₁) hc₁
  refine ⟨c₂,p₂,hread₁.trans hread₂,hrest₂,hc₂,?_⟩
  rw [Phrase.text,← List.append_assoc]
  exact hp₂

theorem read_last (hp : Place o sub done [] p) (hrest : Rests c p.phase) :
    ∃ p', p.read = (.ok (some (c,none)),p') ∧ p'.phase = .done ∧
      p'.tokenizer = p.tokenizer :=
  ⟨_,Parser.read_ends (Tokenizer.next_none hp.reader.stack_eq hp.reader.rest_eq) hrest.atEnd,
    rfl,rfl⟩

theorem read_closed (ho : Reads o) (operator : Operator)
    (hp : Place o sub done (' ' :: (operator.text ++ ' ' :: rest)) p) (hrest : Rests c p.phase)
    (hc : Holds o verb items [] c) :
    ∃ c' p', p.read = (.ok (some (c',some operator)),p') ∧ p'.phase = .closed ∧
      Holds o verb items [(.blank,[' '])] c' ∧
      Place o sub (done ++ [' '] ++ operator.text) (' ' :: rest) p' := by
  have hop : ∀ d ∈ (operator.text ++ ' ' :: rest).head?, Text.isBlank d = false := by
    cases operator <;> rintro d ⟨⟩ <;> decide
  obtain ⟨c₁,p₁,hread,hphase,hc₁,hp₁⟩ := read_space ho hp hop hrest hc
  have hrest₁ : Rests c₁ p₁.phase := hphase ▸ .inCommand c₁
  have hg : p₁.grammar = o := hrest₁.grammar.trans hc₁.options_eq
  have hctx : p₁.context.inCommand = true := by rw [hrest₁.context]; rfl
  obtain ⟨token,t,hn,hk,ht⟩ := hp₁.reader.next_operator p₁.context ho hctx operator
  have hkind : token.kind = .operator :=
    Token.kind_congr (t := .ofSpelling (.operator,operator.text)) hk
  have hval : token.value = operator.text :=
    Token.value_congr (t := .ofSpelling (.operator,operator.text)) hk
  have hmarks : Redirect.Kind.ofText? operator.text = none ∧ operator.text ≠ ['='] ∧
      operator.text ≠ ['&'] := by
    cases operator <;> decide
  have hs : Parser.step { p₁ with
      tokenizer := t, phase := Parser.settle p₁.phase token } token =
        .ok (.close c₁ operator) := by
    simp [Parser.step,hphase,Parser.settle,Parser.stepInCommand,hkind,hval,hmarks]
  exact ⟨c₁,_,hread.trans (Parser.read_closes (hg ▸ hn) hs),rfl,hc₁,hp₁.options_eq,
    hp₁.settings_eq,ht⟩

def Item.fragments : Item → List Fragment
  | word t => [.gap,.quoted t]
  | redirect _ _ => [.gap,.gap]

theorem ofTokens_items (items : List Item) (tail : List Token) :
    Fragment.ofTokens false ((items.flatMap Item.spelling).map Token.ofSpelling ++ tail) =
      items.flatMap Item.fragments ++ Fragment.ofTokens false tail := by
  induction items with
  | nil => rfl
  | cons item items ih =>
    cases item with
    | word t => simp [← ih,Item.spelling,Item.fragments,Token.ofSpelling,Fragment.ofTokens]
    | redirect kind target =>
      simp [← ih,Item.spelling,Item.fragments,Token.ofSpelling,Fragment.ofTokens]

def quotedWord (t : Text) : Word :=
  ⟨t,t,true⟩

theorem ofFragments_items (o : Options σ) (expand : Bool) (current : Option Word)
    (items : List Item) {tail : List Fragment} (htail : tail = [] ∨ tail = [.gap]) (w : σ) :
    Word.ofFragments o expand current (items.flatMap Item.fragments ++ tail) w =
      (current.toList ++ (items.filterMap Item.arg?).map quotedWord,w) := by
  induction items generalizing current with
  | nil =>
    have hnil : Word.ofFragments o expand none [] w = ([],w) := by rw [Word.ofFragments]; rfl
    rcases htail with rfl | rfl
    · show Word.ofFragments o expand current [] w = _
      rw [Word.ofFragments,List.filterMap_nil,List.map_nil,List.append_nil]
      rfl
    · show Word.ofFragments o expand current [.gap] w = _
      rw [Word.ofFragments]
      simp only [bind,StateT.bind,hnil]
      rfl
  | cons item items ih =>
    rw [List.flatMap_cons,List.append_assoc]
    cases item with
    | word t =>
      show Word.ofFragments o expand current
        (.gap :: .quoted t :: (items.flatMap Item.fragments ++ tail)) w = _
      rw [Word.ofFragments,Word.ofFragments]
      simp only [bind,StateT.bind,ih]
      rfl
    | redirect kind target =>
      show Word.ofFragments o expand current
        (.gap :: .gap :: (items.flatMap Item.fragments ++ tail)) w = _
      rw [Word.ofFragments,Word.ofFragments]
      simp only [bind,StateT.bind,ih]
      rfl

structure Says (phrase : Phrase) (c : Command) : Prop where
  verb_eq : c.verb = phrase.verb
  args_eq : c.args = phrase.items.filterMap Item.arg?
  redirects_eq : c.redirects = phrase.items.filterMap Item.redirect?
  kind_eq : c.kind = .game
  globArgs_eq : c.globArgs = []

theorem Holds.ofTokens {tail : List (Token.Kind × Text)} (hc : Holds o verb items tail c)
    (htail : tail = [] ∨ tail = [(.blank,[' '])]) (expand : Bool) (w : σ) :
    Word.ofTokens c.options expand c.command.tokens w =
      ((verb :: items.filterMap Item.arg?).map quotedWord,w) := by
  have htokens : Token.Alike c.command.tokens
      (.ofSpelling (.string,verb) :: ((items.flatMap Item.spelling).map Token.ofSpelling ++
        tail.map Token.ofSpelling)) := by
    have hid : Token.spelling ∘ Token.ofSpelling = id := rfl
    rw [Token.Alike,hc.tokens_eq,← List.map_append,List.map_cons,List.map_map,hid,List.map_id]
    rfl
  have htail' : Fragment.ofTokens false (tail.map Token.ofSpelling) = [] ∨
      Fragment.ofTokens false (tail.map Token.ofSpelling) = [.gap] := by
    rcases htail with rfl | rfl
    · exact .inl (by simp [Fragment.ofTokens])
    · exact .inr (by simp [Fragment.ofTokens,Token.ofSpelling])
  have hverb (ts : List Token) : Fragment.ofTokens true (.ofSpelling (.string,verb) :: ts) =
      .quoted verb :: Fragment.ofTokens false ts := by
    rw [Fragment.ofTokens]
    rfl
  rw [Word.ofTokens,Fragment.ofTokens_congr htokens,hverb,ofTokens_items,Word.ofFragments,
    ofFragments_items _ _ _ _ htail']
  rfl

/-- A command whose texts were all quoted is compiled into what was written, and nothing in
it is a file expression. -/
theorem Holds.compile {phrase : Phrase} {tail : List (Token.Kind × Text)}
    (hc : Holds o phrase.verb phrase.items tail c)
    (htail : tail = [] ∨ tail = [(.blank,[' '])]) (w : σ) :
    ∃ command, c.command.compile c.options w = (command,w) ∧ Says phrase command := by
  have halias : c.command.alias? c.options = none := by
    obtain ⟨token,ts,htokens,hk,-⟩ := List.map_eq_cons_iff.1 hc.tokens_eq
    have hk : token.kind = .string := congrArg Prod.fst hk
    simp [Command.alias?,htokens,hk]
  have hglob : placesOf (fun w => !w.isQuoted && hasGlob w.raw)
      ((phrase.items.filterMap Item.arg?).map quotedWord) = [] := by
    refine placesOf_eq_nil fun x hx => ?_
    obtain ⟨t,-,rfl⟩ := List.mem_map.1 hx
    rfl
  refine ⟨{ c.command with
    verb := phrase.verb, args := phrase.items.filterMap Item.arg?, globArgs := [] },?_,
    rfl,rfl,hc.redirects_eq,hc.kind_eq,rfl⟩
  rw [Command.compile]
  simp only [hc.kind_eq,bind,StateT.bind,hc.ofTokens htail,List.map_cons,halias]
  simp [quotedWord,hglob,Function.comp_def]
  rfl

/-- Links that say what was written: each command, with the operator behind it. -/
inductive SayAll : List (Phrase × Operator) → Phrase → List CommandTree.Link → Prop
  | last {last : Phrase} {c : Command} : Says last c → SayAll [] last [(c,none)]
  | link {phrase : Phrase} {operator : Operator} {commands : List (Phrase × Operator)}
      {last : Phrase} {c : Command} {links : List CommandTree.Link} :
    Says phrase c → SayAll commands last links →
      SayAll ((phrase,operator) :: commands) last ((c,some operator) :: links)

theorem read_start (ho : Reads o) (phrase : Phrase) {gap : Text} (hgap : gap = [] ∨ gap = [' '])
    (hp : Place o sub done (gap ++ (phrase.text ++ rest)) p)
    (hphase : p.phase = .awaitingVerb none) :
    ∃ c p', p.read = p'.read ∧ Rests c p'.phase ∧ Holds o phrase.verb phrase.items [] c ∧
      Place o sub (done ++ gap ++ phrase.text) rest p' := by
  rcases hgap with rfl | rfl
  · rw [List.append_nil]
    exact read_phrase ho phrase hp hphase
  · have hverb : ∀ c ∈ (phrase.text ++ rest).head?, Text.isBlank c = false := by
      rw [Phrase.text,List.append_assoc]
      exact quote_not_blank _ _
    obtain ⟨p₁,hread₁,hphase₁,hp₁⟩ := read_gap ho hp hverb hphase
    obtain ⟨c,p₂,hread₂,hrest₂,hc₂,hp₂⟩ := read_phrase ho phrase hp₁ hphase₁
    exact ⟨c,p₂,hread₁.trans hread₂,hrest₂,hc₂,hp₂⟩

structure Starts (o : Options σ) (sub : Option History.Substitution) (done rest : Text)
    (p : Parser σ) : Prop where
  place : Place o sub done rest p
  current : p.phase.current? = none
  not_done : p.phase ≠ .done

theorem Starts.restart {gap : Text} (h : Starts o sub done (gap ++ rest) p) :
    Place o sub done (gap ++ rest) p.restart ∧ p.restart.phase = .awaitingVerb none := by
  refine ⟨⟨h.place.options_eq,h.place.settings_eq,h.place.reader⟩,?_⟩
  show ParserPhase.awaitingVerb p.phase.current? = _
  rw [h.current]

theorem reads_line (ho : Reads o) (commands : List (Phrase × Operator)) (last : Phrase)
    {gap : Text} (hgap : gap = [] ∨ gap = [' '])
    (hp : Starts o sub done (gap ++ lineText commands last) p) (w : σ) :
    ∃ links t, p.commands w = ((.ok links,t),w) ∧
      p.take (commands.length + 2) w = (links.map (fun l => .ok (some l)) ++ [.ok none],w) ∧
      SayAll commands last links ∧ At sub (done ++ gap ++ lineText commands last) [] t := by
  have hnext {p p' : Parser σ} {c : OpenCommand σ} {operator : Option Operator} {command : Command}
      (hd : p.phase ≠ .done) (hread : p.restart.read = (.ok (some (c,operator)),p'))
      (hcompile : c.command.compile c.options w = (command,w)) :
      p.nextCommand w = ((.ok (some (command,operator)),p'),w) := by
    rw [Parser.nextCommand_closed hd hread]
    simp only [bind,StateT.bind,hcompile]
    rfl
  induction commands generalizing p done gap with
  | nil =>
    have hstart : Starts o sub done (gap ++ (last.text ++ [])) p := by
      simpa [lineText] using hp
    obtain ⟨hplace,hphase⟩ := hstart.restart
    obtain ⟨c,p₁,hread₁,hrest₁,hc₁,hp₁⟩ := read_start ho last hgap hplace hphase
    obtain ⟨p₂,hread₂,hphase₂,ht₂⟩ := read_last hp₁ hrest₁
    obtain ⟨command,hcompile,hsaid⟩ := hc₁.compile (.inl rfl) w
    have hread := hread₁.trans hread₂
    refine ⟨[(command,none)],p₂.tokenizer,?_,?_,.last hsaid,?_⟩
    · rw [Parser.commands_last hread]
      simp only [bind,StateT.bind,hcompile]
      rfl
    · have hend : p₂.nextCommand w = ((.ok none,p₂),w) := by
        rw [Parser.nextCommand_done hphase₂]
        rfl
      exact Parser.take_succ (hnext hp.not_done hread hcompile) (Parser.take_succ hend rfl)
    · rw [ht₂]
      simpa [lineText] using hp₁.reader
  | cons command commands ih =>
    obtain ⟨phrase,operator⟩ := command
    have htext : lineText ((phrase,operator) :: commands) last =
        phrase.text ++ (' ' :: (operator.text ++ ' ' :: lineText commands last)) := by
      simp [lineText]
    rw [htext] at hp ⊢
    obtain ⟨hplace,hphase⟩ := hp.restart
    obtain ⟨c,p₁,hread₁,hrest₁,hc₁,hp₁⟩ := read_start ho phrase hgap hplace hphase
    obtain ⟨c₂,p₂,hread₂,hphase₂,hc₂,hp₂⟩ := read_closed ho operator hp₁ hrest₁ hc₁
    obtain ⟨command,hcompile,hsaid⟩ := hc₂.compile (.inr rfl) w
    have hread := hread₁.trans hread₂
    have hstart : Starts o sub (done ++ gap ++ phrase.text ++ [' '] ++ operator.text)
        ([' '] ++ lineText commands last) p₂ :=
      ⟨hp₂,by rw [hphase₂]; rfl,by rw [hphase₂]; exact fun h => by cases h⟩
    obtain ⟨links,t,hcommands,htake,hsay,ht⟩ := ih (.inr rfl) hstart
    refine ⟨(command,some operator) :: links,t,?_,?_,.link hsaid hsay,?_⟩
    · rw [Parser.commands_closed hread]
      simp only [bind,StateT.bind,hcompile,hcommands]
      rfl
    · exact Parser.take_succ (hnext hp.not_done hread hcompile) htake
    · simpa using ht

theorem SayAll.links {commands : List (Phrase × Operator)} {last : Phrase}
    {links : List CommandTree.Link} (h : SayAll commands last links) :
    links ≠ [] ∧ links.dropLast.any (·.2 = none) = false ∧ links.getLast?.map (·.2) = some none := by
  induction h with
  | last => exact ⟨by simp,rfl,rfl⟩
  | link _ _ ih =>
    obtain ⟨hne,hinit,hlast⟩ := ih
    refine ⟨by simp,?_,?_⟩
    · rw [List.dropLast_cons_of_ne_nil hne]
      simpa using hinit
    · rw [List.getLast?_cons_of_ne_nil hne]
      exact hlast

theorem SayAll.linkLine {commands : List (Phrase × Operator)} {last : Phrase}
    {links : List CommandTree.Link} (h : SayAll commands last links) :
    ∃ tree, CommandTree.link links = .ok (some tree) ∧ linkLine links = .ok (some tree) := by
  obtain ⟨hne,hinit,hlast⟩ := h.links
  obtain ⟨⟨c,operator⟩,hlink,rfl⟩ := Option.map_eq_some_iff.1 hlast
  obtain ⟨tree,htree⟩ := CommandTree.link_ok hne hinit (by rw [hlink]; rfl)
  refine ⟨tree,htree,?_⟩
  rw [Realm.linkLine,hlink]
  exact htree

end Parsing

/-- Whatever verbs, words and file names are written in quotes, and whatever operators stand
between the commands, the parser gives back exactly what was written: command by command,
then nothing more; and the whole line is the tree that links those commands, unchanged by
any history. -/
theorem parseLine_lineText {σ : Type} {o : Options σ} (ho : Reads o)
    (sub : Option History.Substitution) (commands : List (Phrase × Operator)) (last : Phrase)
    (w : σ) :
    ∃ links tree, SayAll commands last links ∧
      (Parser.new (lineText commands last) o (fun _ => none) sub).take (commands.length + 2) w =
        (links.map (fun l => .ok (some l)) ++ [.ok none],w) ∧
      CommandTree.link links = .ok (some tree) ∧
      parseLine (lineText commands last) o (fun _ => none) sub w =
        (.ok ⟨some tree,lineText commands last,false,sub⟩,w) := by
  have hstart : Starts o sub [] ([] ++ lineText commands last)
      (Parser.new (lineText commands last) o (fun _ => none) sub) :=
    ⟨⟨rfl,rfl,rfl,rfl,rfl,rfl,rfl⟩,rfl,nofun⟩
  obtain ⟨links,t,hcommands,htake,hsay,ht⟩ := reads_line ho commands last (.inl rfl) hstart w
  obtain ⟨tree,hlink,hline⟩ := hsay.linkLine
  refine ⟨links,tree,hsay,htake,hlink,?_⟩
  rw [parseLine_commands hcommands hline,ht.expanded_eq,ht.printOnly_eq,ht.substitution_eq]
  rfl

/-- In a session with an alias and a history: a verb with a reference and an operator in its
word, a file name with a blank, and a verb that is empty. -/
theorem parseLine_lineText_session :
    let o : Options Unit := { aliases := [("l".toList,"look $*".toList)]
                              history := ["look".toList] }
    let commands : List (Phrase × Operator) :=
      [(⟨"say".toList,[.word "!! ; $x \"*".toList,.redirect .append "a file".toList]⟩,.and)]
    Reads o ∧ ∃ links tree, SayAll commands ⟨[],[]⟩ links ∧
      (Parser.new (lineText commands ⟨[],[]⟩) o (fun _ => none) none).take 3 () =
        (links.map (fun l => .ok (some l)) ++ [.ok none],()) ∧
      CommandTree.link links = .ok (some tree) ∧
      parseLine (lineText commands ⟨[],[]⟩) o (fun _ => none) none () =
        (.ok ⟨some tree,lineText commands ⟨[],[]⟩,false,none⟩,()) :=
  have ho : Reads (σ := Unit) { aliases := [("l".toList,"look $*".toList)]
                                history := ["look".toList] } :=
    ⟨rfl,rfl,rfl,by decide,by decide⟩
  ⟨ho,parseLine_lineText ho none _ _ ()⟩

end Realm.Quoting
