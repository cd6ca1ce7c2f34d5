import Realm.Proofs.Session

/-! Lines that wait for more. A line is held back for the sake of a backslash at the end of some
text: of the line itself, or else of a text that the history brings into it, where no further
line can make good what is missing. -/
namespace Realm

/-- The text ends in a backslash. -/
def EndsInEscape (t : Text) : Prop :=
  t.getLast? = some '\\'

instance (t : Text) : Decidable (EndsInEscape t) :=
  inferInstanceAs (Decidable (t.getLast? = some '\\'))

theorem EndsInEscape.of_drop {t : Text} {n : Nat} (h : EndsInEscape (t.drop n)) :
    EndsInEscape t := by
  unfold EndsInEscape at h
  rw [List.getLast?_drop] at h
  split at h
  · cases h
  · exact h

namespace Lexeme

theorem special_incomplete {g : Grammar} {ctx : LexContext} {start : Nat} {c : Char} {t : Text}
    (h : special g ctx start c t = .error .incomplete) : c = '\\' ∧ t = [] := by
  have hquoted {kind : Token.Kind} {quote : Char} : quoted kind quote start t ≠
      .error .incomplete := by
    unfold quoted
    split <;> nofun
  unfold special at h
  split at h
  case h_10 =>
    split at h
    · unfold escape at h
      split at h
      · cases h
      · cases h
      · exact ⟨rfl,rfl⟩
    · cases h
  all_goals
    repeat' split at h
    all_goals first
      | cases h
      | exact absurd h hquoted

theorem scan_incomplete {σ : Type} {o : Options σ} {ctx : LexContext}
    {previous : Option Token.Kind} {start : Nat} {c : Char} {t : Text}
    (h : scan o ctx previous start c t = .error .incomplete) : c = '\\' ∧ t = [] := by
  unfold scan at h
  repeat' split at h
  all_goals first
    | cases h
    | exact special_incomplete h

end Lexeme

/-! What the history brings into a line. -/

/-- The lines that are read when one comes in: itself, or what a quick substitution makes
of it. -/
inductive ReadsAs (history : List Text) (line : Text) : Text → Prop
  | itself : ReadsAs history line line
  | substituted {text : Text} {sub : History.Substitution} :
    line.head? = some '^' → History.quickSubstitute line history = .ok (text,sub) →
      ReadsAs history line text

/-- Texts that come from the history when a line is read: the line after a quick
substitution, and what the references in a line stand for. -/
inductive BroughtIn (history : List Text) (line : Text) : Text → Prop
  | substituted {text : Text} {sub : History.Substitution} :
    line.head? = some '^' → History.quickSubstitute line history = .ok (text,sub) →
      BroughtIn history line text
  | referred {before rest : Text} {last : Option History.Substitution} {r : History.Resolved} :
    ReadsAs history line (before ++ '!' :: rest) →
      History.resolve history last ('!' :: rest) = .ok r → BroughtIn history line r.text

/-- Why a line waits for another one. -/
def Waits (history : List Text) (line : Text) : Prop :=
  EndsInEscape line ∨ ∃ text, BroughtIn history line text ∧ EndsInEscape text

theorem ReadsAs.waits {history : List Text} {line text : Text} (h : ReadsAs history line text)
    (ht : EndsInEscape text) : Waits history line := by
  cases h with
  | itself => exact .inl ht
  | substituted hhead hsub => exact .inr ⟨text,.substituted hhead hsub,ht⟩

theorem History.resolve_error {history : List Text} {last : Option Substitution} {input : Text}
    {e : Error} (h : resolve history last input = .error e) : e ≠ .incomplete := by
  unfold resolve at h
  split at h <;> cases h
  nofun

theorem History.quickSubstitute_error {history : List Text} {line : Text} {e : Error}
    (h : quickSubstitute line history = .error e) : e ≠ .incomplete := by
  unfold quickSubstitute at h
  split at h
  · cases h
    nofun
  · dsimp only at h
    split at h <;> cases h
    nofun

namespace Tokenizer

variable {σ : Type} {o : Options σ} {ctx : LexContext} {t t' : Tokenizer}

theorem historyTokens_incomplete {text : Text} {previous : Option Token.Kind} {start : Nat}
    (h : historyTokens o ctx previous start text = .error .incomplete) : EndsInEscape text := by
  induction hn : text.length using Nat.strongRecOn generalizing text ctx previous start with
  | _ n ih =>
    cases text with
    | nil => rw [historyTokens] at h; cases h
    | cons c rest =>
      rw [historyTokens] at h
      cases hscan : Lexeme.scan o ctx previous start c rest with
      | error e =>
        rw [hscan] at h
        cases h
        obtain ⟨rfl,rfl⟩ := Lexeme.scan_incomplete hscan
        rfl
      | ok lexeme =>
        rw [hscan] at h
        simp only [bind,Except.bind] at h
        split at h
        · next e hrest =>
          cases h
          have hlt : ((c :: rest).drop lexeme.width).length < n := by
            have := lexeme.width_pos
            rw [← hn,List.length_drop,List.length_cons]
            omega
          exact (ih _ hlt hrest rfl).of_drop
        · cases h

/-- A reader that has come some way into a line, or into what a quick substitution has made of
it. -/
structure Reading (history : List Text) (line : Text) (t : Tokenizer) : Prop where
  readsAs : ReadsAs history line t.source
  unchanged : t.restarted = false → t.source = line

variable {history : List Text} {line : Text}

theorem Reading.of_source (h : t.Reading history line) (hs : t'.source = t.source)
    (hr : t'.restarted = t.restarted) : t'.Reading history line :=
  ⟨hs ▸ h.readsAs,fun hf => hs.trans (h.unchanged (hr.symm.trans hf))⟩

@[simp] theorem source_skip (width : Nat) (expansion : Text) :
    (t.skip width expansion).source = t.source := by
  simp [source,skip]

theorem Reading.waits_reference (h : t.Reading history line) {rest : Text}
    (hr : t.rest = '!' :: rest) {r : History.Resolved}
    (hres : History.resolve history t.lastSubstitution t.rest = .ok r)
    (htext : EndsInEscape r.text) : Waits history line := by
  have hread : ReadsAs history line (t.before ++ '!' :: rest) := hr ▸ h.readsAs
  exact .inr ⟨r.text,.referred hread (hr ▸ hres),htext⟩

/-- A token leaves the reader in the line, and where one is wanting, the line waits. -/
theorem Reading.dispatch (h : t.Reading o.history line) {c : Char} {rest : Text}
    (hr : t.rest = c :: rest) {answer : Except Error Token}
    (hd : t.dispatch o ctx c rest = (answer,t')) :
    t'.Reading o.history line ∧ (answer = .error .incomplete → Waits o.history line) := by
  unfold Tokenizer.dispatch at hd
  split at hd
  · next hquick =>
    obtain ⟨rfl,hbefore,-,hrestarted,-,-⟩ := hquick
    have hline : t.source = line := h.unchanged hrestarted
    have hhead : line.head? = some '^' := by rw [← hline,source,hbefore,hr]; rfl
    split at hd
    · next e he =>
      cases hd
      exact ⟨h,fun hi => absurd (Except.error.inj hi) (History.quickSubstitute_error he)⟩
    · next text sub hsub =>
      cases hd
      exact ⟨⟨.substituted hhead (hline ▸ hsub),nofun⟩,nofun⟩
  · split at hd
    · next hmark =>
      obtain rfl := hmark.1
      unfold readMark at hd
      dsimp only at hd
      split at hd
      · cases hd
        exact ⟨h.of_source (source_skip _ _) rfl,nofun⟩
      · split at hd
        · next e he =>
          cases hd
          exact ⟨h,fun hi => absurd (Except.error.inj hi) (History.resolve_error he)⟩
        · next r hres =>
          split at hd
          · next e he =>
            cases hd
            refine ⟨h.of_source rfl rfl,fun hi => ?_⟩
            cases hi
            exact h.waits_reference hr hres (historyTokens_incomplete he)
          · cases hd
            exact ⟨h.of_source (source_skip _ r.text) rfl,nofun⟩
    · split at hd
      · next e he =>
        cases hd
        refine ⟨h,fun hi => ?_⟩
        cases hi
        obtain ⟨rfl,rfl⟩ := Lexeme.scan_incomplete he
        refine h.readsAs.waits ?_
        simp [EndsInEscape,source,hr]
      · cases hd
        exact ⟨h.of_source (source_skip _ _) rfl,nofun⟩

theorem Reading.next (h : t.Reading o.history line) {answer : Except Error (Option Token)}
    (hn : t.next o ctx = (answer,t')) :
    t'.Reading o.history line ∧ (answer = .error .incomplete → Waits o.history line) := by
  unfold Tokenizer.next at hn
  split at hn
  · cases hn
    exact ⟨h.of_source rfl rfl,fun hi => by cases hi⟩
  · split at hn
    · cases hn
      exact ⟨h,fun hi => by cases hi⟩
    · next c rest hr =>
      split at hn
      · next e t₁ hd =>
        cases hn
        obtain ⟨hread,hwaits⟩ := h.dispatch hr hd
        exact ⟨hread,fun hi => hwaits (congrArg _ (Except.error.inj hi))⟩
      · next token t₁ hd =>
        cases hn
        exact ⟨(h.dispatch hr hd).1.of_source rfl rfl,fun hi => by cases hi⟩

end Tokenizer

namespace Parser

variable {σ : Type} {p p' : Parser σ} {history : List Text} {line : Text}

/-- A parser that has come some way into a line, with the history of the session. -/
structure Reading (history : List Text) (line : Text) (p : Parser σ) : Prop where
  tokenizer : p.tokenizer.Reading history line
  history_eq : p.options.history = history
  phase : p.phase.Between ∨ ∃ c, p.phase.Within c ∧ c.options.history = history

theorem Reading.grammar_history (h : p.Reading history line) : p.grammar.history = history := by
  rcases h.phase with hbetween | ⟨c,hwithin,hc⟩
  · rw [(reader_between hbetween).1]
    exact h.history_eq
  · rw [(reader_within hwithin).1]
    exact hc

theorem Reading.next (h : p.Reading history line) {t : Tokenizer}
    {answer : Except Error (Option Token)}
    (hn : p.tokenizer.next p.grammar p.context = (answer,t)) :
    t.Reading history line ∧ (answer = .error .incomplete → Waits history line) := by
  have ho := h.grammar_history
  have ht := h.tokenizer
  rw [← ho] at ht ⊢
  exact ht.next hn

theorem Reading.goesOn (h : p.Reading history line) {t : Tokenizer} {token : Token}
    {phase : ParserPhase σ} (hn : p.tokenizer.next p.grammar p.context = (.ok (some token),t))
    (hs : step { p with tokenizer := t, phase := settle p.phase token } token =
      .ok (.goOn phase)) :
    Reading history line { p with tokenizer := t, phase } := by
  refine ⟨(h.next hn).1,h.history_eq,?_⟩
  rcases h.phase with hbetween | ⟨c,hwithin,hc⟩
  · rcases step_between hbetween hs with ⟨hgo,-⟩ | ⟨hgo,-⟩
    · cases hgo
      exact .inl .awaitingVerb
    · cases hgo
      obtain ⟨grammar,ho,-⟩ := OpenCommand.ofVerb_grammar p.options p.settings token
      exact .inr ⟨_,.inCommand _,by rw [ho]; exact h.history_eq⟩
  · rcases step_within hwithin hs with ⟨_,d,hgo,hd,hgrows⟩ | ⟨_,_,hclose,_⟩
    · cases hgo
      exact .inr ⟨d,hd,by rw [hgrows.options_eq]; exact hc⟩
    · cases hclose

theorem Reading.restart (ht : p.tokenizer.Reading history line)
    (ho : p.options.history = history) (hp : p.phase.current? = none) :
    p.restart.Reading history line :=
  ⟨ht,ho,.inl (by rw [Parser.restart,hp]; exact .awaitingVerb)⟩

theorem step_ne_incomplete (token : Token) : p.step token ≠ .error .incomplete := by
  have hunexpected : unexpected p.tokenizer.source token ≠ .incomplete := by
    unfold unexpected
    split <;> nofun
  intro h
  unfold step stepAwaitingVerb stepInCommand stepRedirectTarget at h
  repeat' split at h
  all_goals first
    | exact hunexpected (Except.error.inj h)
    | cases h

theorem atEnd_ne_incomplete (phase : ParserPhase σ) : atEnd phase ≠ .error .incomplete := by
  unfold atEnd
  repeat' split
  all_goals nofun

/-- Where a command cannot be read for want of another line, there is a reason in the line. -/
theorem Reading.read_incomplete (h : p.Reading history line)
    (hread : p.read = (.error .incomplete,p')) : Waits history line := by
  induction hr : p.tokenizer.remaining using
    (WellFounded.induction (r := Tokenizer.Fewer)
      (Prod.lex Nat.lt_wfRel (Prod.lex Nat.lt_wfRel Nat.lt_wfRel)).wf) generalizing p with
  | _ r ih =>
    subst hr
    rw [read_eq] at hread
    split at hread
    · next e t hn =>
      cases hread
      exact (h.next hn).2 rfl
    · next t hn =>
      split at hread
      · next e he =>
        cases hread
        exact absurd he (atEnd_ne_incomplete _)
      · cases hread
    · next token t hn =>
      split at hread
      · next e he =>
        cases hread
        exact absurd he (step_ne_incomplete token)
      · next phase hs => exact ih _ (Tokenizer.next_fewer hn) (h.goesOn hn hs) hread rfl
      · cases hread

theorem Reading.reads (h : p.Reading history line) {tokens : List Token}
    {out : Option (OpenCommand σ × Option Operator)} (hreads : Reads p tokens out p') :
    p'.tokenizer.Reading history line := by
  induction hreads with
  | ends hn _ => exact (h.next hn).1
  | closes hn _ => exact (h.next hn).1
  | goesOn hn hs _ ih => exact ih (h.goesOn hn hs)

theorem Reading.commands_incomplete (h : p.restart.Reading history line) {t : Tokenizer}
    {w w' : σ} (hc : p.commands w = ((.error .incomplete,t),w')) : Waits history line := by
  induction hr : p.tokenizer.remaining using
    (WellFounded.induction (r := Tokenizer.Fewer)
      (Prod.lex Nat.lt_wfRel (Prod.lex Nat.lt_wfRel Nat.lt_wfRel)).wf) generalizing p w with
  | _ r ih =>
    subst hr
    rcases hread : p.restart.read with ⟨e | (_ | ⟨c,_ | operator⟩),q⟩
    · rw [commands_error hread] at hc
      cases hc
      exact h.read_incomplete hread
    · rw [commands_none hread] at hc
      cases hc
    · rw [commands_last hread] at hc
      cases hc
    · rw [commands_closed hread] at hc
      obtain ⟨tokens,hreads⟩ := reads_of_read hread
      obtain ⟨hoptions,-,hphase⟩ := hreads.session
      have hq : q.restart.Reading history line :=
        .restart (h.reads hreads) (by rw [hoptions]; exact h.history_eq) hphase
      rcases hcompile : c.command.compile c.options w with ⟨command,w₁⟩
      simp only [bind,StateT.bind,hcompile] at hc
      rcases hrest : q.commands w₁ with ⟨⟨e | links,t₁⟩,w₂⟩
      · rw [hrest] at hc
        cases hc
        have hfewer := read_fewer hread
        exact ih _ hfewer hq hrest rfl
      · rw [hrest] at hc
        cases hc

end Parser

theorem linkLine_ne_incomplete (links : List CommandTree.Link) :
    linkLine links ≠ .error .incomplete := by
  unfold linkLine CommandTree.link
  repeat' split
  all_goals nofun

/-- A line that is not whole has a backslash at its end, or else brings in a text that has. -/
theorem parseLine_incomplete {σ : Type} {line : Text} {o : Options σ} {settings : Settings}
    {sub : Option History.Substitution} {w w' : σ}
    (h : parseLine line o settings sub w = (.error .incomplete,w')) : Waits o.history line := by
  rw [parseLine] at h
  simp only [bind,StateT.bind] at h
  rcases hc : (Parser.new line o settings sub).commands w with ⟨⟨e | links,t⟩,w₁⟩
  · rw [hc] at h
    have hline : (Parser.new line o settings sub).restart.Reading o.history line :=
      .restart ⟨.itself,fun _ => rfl⟩ rfl rfl
    cases h
    exact hline.commands_incomplete hc
  · rw [hc] at h
    dsimp only [Except.bind] at h
    cases hl : linkLine links with
    | error e =>
      rw [hl] at h
      cases h
      exact absurd hl (linkLine_ne_incomplete links)
    | ok tree => rw [hl] at h; cases h

namespace Shell

variable {σ : Type} {s s' : Shell σ} {line : Text} {w w' : σ}

@[simp] theorem endsInEscape_textFor (s : Shell σ) (line : Text) :
    EndsInEscape (s.textFor line) ↔ EndsInEscape line := by
  unfold EndsInEscape textFor
  cases s.pending with
  | none => rfl
  | some pending =>
    cases line with
    | nil => simp
    | cons c line => simp [List.getLast?_append]

/-- A line is held back only for a backslash: at its own end, and so at the end of all that
waits, or at the end of a text that the history brings into it. -/
theorem waits_of_process (h : s.process line w = ((.ok .incomplete,s'),w')) :
    (EndsInEscape line ∧ EndsInEscape (s.textFor line)) ∨
      ∃ text, BroughtIn s.options.history (s.textFor line) text ∧ EndsInEscape text := by
  rcases hp : parseLine (s.textFor line) s.options s.settings s.lastSubstitution w with ⟨result,w₁⟩
  have hresult : result = .error .incomplete := by
    cases result with
    | ok parsed =>
      rw [process_ok hp] at h
      exact absurd (Except.ok.inj (congrArg (fun r => r.1.1) h)) (inputOf_ne_incomplete parsed)
    | error e =>
      by_cases he : e = .incomplete
      · rw [he]
      · rw [process_error hp he] at h
        cases h
  subst hresult
  rcases parseLine_incomplete hp with hline | hbrought
  · exact .inl ⟨(s.endsInEscape_textFor line).1 hline,hline⟩
  · exact .inr hbrought

theorem process_escape :
    ({} : Shell Unit).process ['\\'] () = ((.ok .incomplete,{ pending := some ['\\'] }),()) :=
  process_incomplete (s := {}) (parseLine_error (t := .new ['\\'] none) rfl ())

theorem waits_of_process_escape :
    ({} : Shell Unit).process ['\\'] () = ((.ok .incomplete,{ pending := some ['\\'] }),()) ∧
      ((EndsInEscape ['\\'] ∧ EndsInEscape (({} : Shell Unit).textFor ['\\'])) ∨
        ∃ text, BroughtIn [] (({} : Shell Unit).textFor ['\\']) text ∧ EndsInEscape text) :=
  ⟨process_escape,waits_of_process process_escape⟩

end Shell

section Stuck

variable {σ : Type}

/-- A reference without modifiers stands for the words that its designator picks. -/
theorem History.resolve_words {history : List Text} {last : Option Substitution}
    {input line text rest : Text} {w : Event.Written} (hw : Event.read? input = some w)
    (hline : w.event.find? history = some line)
    (htext : designatedWords input line w = .ok (text,rest)) (hrest : rest.head? ≠ some ':') :
    resolve history last ('!' :: input) = .ok ⟨text,readPart input rest,false,none⟩ := by
  have hmodifiers : applyModifiers input ⟨text,false,none,last⟩ rest =
      .ok (⟨text,false,none,last⟩,rest) := by
    rw [applyModifiers]
    rintro t rfl
    exact hrest rfl
  have hmark : resolveAfterMark history last input =
      .ok ⟨text,readPart input rest,false,none⟩ := by
    rw [resolveAfterMark,hw]
    simp only [hline,htext,hmodifiers]
  simp [resolve,hmark]

/-- A line fails if it begins with a reference to a text that cannot be cut into tokens. -/
theorem parseLine_reference_error {o : Options σ} {rest : Text} {r : History.Resolved} {e : Error}
    (hallowed : Tokenizer.allowsReference o true = true) (hmark : o.charAlias? '!' = none)
    (hrest : Tokenizer.isLiteralMark true rest = false)
    (hr : History.resolve o.history none ('!' :: rest) = .ok r)
    (ht : Tokenizer.historyTokens { o with historyLevel := .off } {} none 0 r.text = .error e)
    (settings : Settings) (w : σ) : parseLine ('!' :: rest) o settings none w = (.error e,w) := by
  let start : Tokenizer := .new ('!' :: rest) none
  have hstart : Text.isAllBlank start.before = true := rfl
  have hr' : History.resolve o.history start.lastSubstitution start.rest = .ok r := hr
  have hread : start.readMark o {} rest =
      (.error e,{ start with
        lastSubstitution := r.substitution.or start.lastSubstitution
        printOnly := start.printOnly || r.printOnly }) := by
    simp [Tokenizer.readMark,hstart,hallowed,hrest,hr',ht]
  have hdispatch : start.dispatch o {} '!' rest = start.readMark o {} rest := by
    rw [Tokenizer.dispatch,if_neg (fun h => absurd h.1 (by decide)),if_pos ⟨rfl,.inr hmark⟩]
  exact parseLine_error (Tokenizer.next_error rfl rfl (hdispatch.trans hread)) w

theorem parseLine_lineEnd :
    ∃ tree, parseLine ['\\','\n'] ({} : Options Unit) (fun _ => none) none () =
      (.ok ⟨some tree,['\\','\n'],false,none⟩,()) := by
  let p : Parser Unit := .new ['\\','\n'] {} (fun _ => none) none
  let token : Token := ⟨.word,[],.input,0,2,none⟩
  let t : Tokenizer := ⟨['\\','\n'],[],[],some .word,none,false,false,['\\','\n']⟩
  let c : OpenCommand Unit := ⟨.opened token .game,{}⟩
  have hn : p.restart.tokenizer.next p.restart.grammar p.restart.context = (.ok (some token),t) :=
    rfl
  have hread : p.restart.read = (.ok (some (c,none)),{ p with tokenizer := t, phase := .done }) :=
    (Parser.read_goesOn hn rfl).trans (Parser.read_ends (c := some c) (Tokenizer.next_none rfl rfl)
      rfl)
  have hcommands : p.commands () = ((.ok [((c.command.compile c.options ()).1,none)],t),()) := by
    rw [Parser.commands_last hread]
    rfl
  obtain ⟨tree,hlink⟩ : ∃ tree, linkLine [((c.command.compile c.options ()).1,none)] =
      .ok (some tree) := CommandTree.link_ok (by simp) rfl rfl
  exact ⟨tree,parseLine_commands hcommands hlink⟩

/-- The first word of that line is its backslash, and is cut into tokens by itself, whatever
comes in the lines below. -/
theorem parseLine_firstWord (below : Text) (h : below.head? = none ∨ below.head? = some '\n') :
    parseLine ('!' :: '!' :: ':' :: '0' :: below)
      ({ history := [['\\','\n']] } : Options Unit) (fun _ => none) none () =
        (.error .incomplete,()) := by
  have hresolve : History.resolve [['\\','\n']] none ('!' :: '!' :: ':' :: '0' :: below) =
      .ok ⟨['\\'],History.readPart ('!' :: ':' :: '0' :: below) below,false,none⟩ := by
    rcases below with _ | ⟨c,below⟩
    · exact History.resolve_words rfl rfl rfl nofun
    · obtain rfl : c = '\n' := by simpa using h
      exact History.resolve_words rfl rfl rfl (by simp)
  refine parseLine_reference_error rfl (Options.charAlias?_eq_none rfl) rfl hresolve ?_ _ ()
  rw [Tokenizer.historyTokens]
  rfl

end Stuck

namespace Shell

/-- A session that waits for more below the first word of a line which is only a backslash. -/
def stuck (below : Text) : Shell Unit where
  options := { history := [['\\','\n']] }
  pending := some ('!' :: '!' :: ':' :: '0' :: below)

theorem stuck_takeIn (below : Text) (h : below.head? = none ∨ below.head? = some '\n')
    (lines : List Text) :
    ∀ t ∈ ((stuck below).takeIn () lines).1, t.answer = .ok .incomplete := by
  induction lines generalizing below with
  | nil => exact fun _ ht => absurd ht List.not_mem_nil
  | cons line lines ih =>
    have hbelow : (below ++ '\n' :: line).head? = none ∨
        (below ++ '\n' :: line).head? = some '\n' := by
      cases below with
      | nil => exact .inr rfl
      | cons c below => exact h
    have hprocess : (stuck below).process line () =
        ((.ok .incomplete,stuck (below ++ '\n' :: line)),()) :=
      process_incomplete (s := stuck below) (parseLine_firstWord (below ++ '\n' :: line) hbelow)
    intro t ht
    have ht' : t ∈ ⟨stuck below,(),line⟩ ::
        (((stuck below).process line ()).1.2.takeIn () lines).1 := ht
    rw [hprocess] at ht'
    rcases List.mem_cons.1 ht' with rfl | ht'
    · exact congrArg (fun r => r.1.1) hprocess
    · exact ih _ hbelow t ht'

/-- Lines that do not end in a backslash can be held back, and then no line ends the wait. The
session has three lines: a backslash, an empty one, and the first word of these two. -/
theorem not_waits_of_process :
    let s := (({} : Shell Unit).takeIn () [['\\'],[]]).2
    ∃ s', s.pending = none ∧ s.process ['!','!',':','0'] () = ((.ok .incomplete,s'),()) ∧
      ¬ EndsInEscape (s.textFor ['!','!',':','0']) ∧
      ∀ lines, ∀ t ∈ (s'.takeIn () lines).1, t.answer = .ok .incomplete := by
  obtain ⟨tree,hparse⟩ := parseLine_lineEnd
  have hsecond : ({ pending := some ['\\'] } : Shell Unit).process [] () =
      ((.ok (.command tree),{ options := { history := [['\\','\n']] } }),()) :=
    process_ok (s := { pending := some ['\\'] }) hparse
  have hrun : (({} : Shell Unit).takeIn () [['\\'],[]]).2 =
      { options := { history := [['\\','\n']] } } := by
    simp only [takeIn,Turn.after,Turn.worldAfter,process_escape,hsecond]
  rw [hrun]
  exact ⟨stuck [],rfl,process_incomplete (parseLine_firstWord [] (.inl rfl)),by decide,
    stuck_takeIn [] (.inl rfl)⟩

end Shell

end Realm
