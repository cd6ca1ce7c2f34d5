import Realm.Proofs.Command.Cutting
import Realm.Proofs.Command.Compile
import Realm.Proofs.Command.Linking

/-! What the values of variables can do to a line. They come in only when a command is
compiled, after it has been cut and classified, and there they fill words that are already
told apart. So two sessions that differ in their variables see lines of one structure. -/
namespace Realm

section Environment

variable {σ : Type}

/-- The same session with other variables. -/
def Options.withEnvironment (o : Options σ) (environment : Table Text (Variable σ)) :
    Options σ :=
  { o with environment }

variable (environment : Table Text (Variable σ))

/-- The same command, to be compiled with other variables. -/
def OpenCommand.withEnvironment (c : OpenCommand σ) : OpenCommand σ :=
  { c with options := c.options.withEnvironment environment }

def ParserPhase.withEnvironment : ParserPhase σ → ParserPhase σ
  | awaitingVerb abandoned => awaitingVerb (abandoned.map (·.withEnvironment environment))
  | inCommand current => inCommand (current.withEnvironment environment)
  | awaitingRedirectTarget current pending =>
    awaitingRedirectTarget (current.withEnvironment environment) pending
  | closed => closed
  | done => done

namespace Parser

def withEnvironment (p : Parser σ) : Parser σ :=
  { p with
    options := p.options.withEnvironment environment
    phase := p.phase.withEnvironment environment }

def Step.withEnvironment : Step σ → Step σ
  | goOn phase => goOn (phase.withEnvironment environment)
  | close command operator => close (command.withEnvironment environment) operator

end Parser

def OpenCommand.closedWith (c : OpenCommand σ × Option Operator) :
    OpenCommand σ × Option Operator :=
  (c.1.withEnvironment environment,c.2)

section Reader

variable (o : Options σ) (ctx : LexContext) (t : Tokenizer)

@[simp] theorem Tokenizer.historyTokens_withEnvironment (previous : Option Token.Kind) (start : Nat)
    (text : Text) :
    historyTokens (o.withEnvironment environment) ctx previous start text =
      historyTokens o ctx previous start text := by
  fun_induction historyTokens o ctx previous start text with
  | case1 => rw [historyTokens]
  | case2 ctx previous start c t ih =>
    rw [historyTokens]
    congr 1
    funext lexeme
    exact congrArg (· >>= fun tokens => pure (_ :: tokens)) (ih lexeme)

@[simp] theorem Tokenizer.next_withEnvironment :
    t.next (o.withEnvironment environment) ctx = t.next o ctx := by
  have hmark (rest : Text) :
      readMark (o.withEnvironment environment) ctx t rest = readMark o ctx t rest := by
    have htokens (text : Text) :=
      historyTokens_withEnvironment environment { o with historyLevel := .off } ctx none 0 text
    unfold readMark
    simp only [← htokens]
    rfl
  have hdispatch (c : Char) (rest : Text) :
      dispatch (o.withEnvironment environment) ctx t c rest = dispatch o ctx t c rest := by
    unfold dispatch
    rw [hmark]
    rfl
  unfold next
  simp only [hdispatch]

end Reader

namespace Parser

variable (p : Parser σ) (token : Token)

@[simp] theorem settle_withEnvironment (phase : ParserPhase σ) :
    settle (phase.withEnvironment environment) token =
      (settle phase token).withEnvironment environment := by
  cases phase with
  | awaitingRedirectTarget c pending =>
    simp only [settle,ParserPhase.withEnvironment]
    split <;> rfl
  | awaitingVerb | inCommand | closed | done => rfl

@[simp] theorem ofVerb_withEnvironment (o : Options σ) (settings : Settings) :
    OpenCommand.ofVerb (o.withEnvironment environment) settings token =
      (OpenCommand.ofVerb o settings token).withEnvironment environment := by
  rw [OpenCommand.ofVerb_eq,OpenCommand.ofVerb_eq]
  split
  · rfl
  · have hname : settings (OpenCommand.lookupName (o.withEnvironment environment)
        (OpenCommand.promote (o.withEnvironment environment) token)) =
        settings (OpenCommand.lookupName o (OpenCommand.promote o token)) := rfl
    rw [hname]
    cases settings (OpenCommand.lookupName o (OpenCommand.promote o token)) <;> rfl

@[simp] theorem step_withEnvironment :
    step (p.withEnvironment environment) token =
      (step p token).map (Step.withEnvironment environment) := by
  have hverb (abandoned : Option (OpenCommand σ)) :
      stepAwaitingVerb (p.withEnvironment environment)
          (abandoned.map (·.withEnvironment environment)) token =
        (stepAwaitingVerb p abandoned token).map (Step.withEnvironment environment) := by
    unfold stepAwaitingVerb
    split
    · rfl
    · rfl
    · rfl
    · split
      · simp only [withEnvironment,ofVerb_withEnvironment]
        rfl
      · rfl
  obtain ⟨t,o,settings,phase⟩ := p
  cases phase with
  | awaitingVerb abandoned => exact hverb abandoned
  | closed | done => exact hverb none
  | inCommand c =>
    simp only [step,withEnvironment,ParserPhase.withEnvironment]
    unfold stepInCommand
    split
    · rfl
    · rfl
    · split
      · rfl
      · split
        · rfl
        · split
          · rfl
          · split <;> rfl
    · rfl
  | awaitingRedirectTarget c pending =>
    simp only [step,withEnvironment,ParserPhase.withEnvironment]
    unfold stepRedirectTarget
    split <;> rfl

@[simp] theorem atEnd_withEnvironment (phase : ParserPhase σ) :
    atEnd (phase.withEnvironment environment) =
      (atEnd phase).map (Option.map (·.withEnvironment environment)) := by
  cases phase with
  | awaitingRedirectTarget c pending =>
    simp only [atEnd,ParserPhase.withEnvironment]
    split <;> rfl
  | awaitingVerb | inCommand | closed | done => rfl

@[simp] theorem grammar_withEnvironment :
    (p.withEnvironment environment).grammar = p.grammar.withEnvironment environment := by
  obtain ⟨t,o,settings,phase⟩ := p
  cases phase with
  | awaitingVerb abandoned => cases abandoned <;> rfl
  | inCommand | awaitingRedirectTarget | closed | done => rfl

@[simp] theorem context_withEnvironment : (p.withEnvironment environment).context = p.context := by
  obtain ⟨t,o,settings,phase⟩ := p
  cases phase with
  | awaitingVerb abandoned => cases abandoned <;> rfl
  | inCommand | awaitingRedirectTarget | closed | done => rfl

/-- A run takes the same turns whatever the variables hold. -/
@[simp] theorem read_withEnvironment :
    (p.withEnvironment environment).read =
      (p.read.1.map (Option.map (OpenCommand.closedWith environment)),
        p.read.2.withEnvironment environment) := by
  induction hr : p.tokenizer.remaining using
    (WellFounded.induction (r := Tokenizer.Fewer)
      (Prod.lex Nat.lt_wfRel (Prod.lex Nat.lt_wfRel Nat.lt_wfRel)).wf) generalizing p with
  | _ r ih =>
    subst hr
    have hnext : (p.withEnvironment environment).tokenizer.next
        (p.withEnvironment environment).grammar (p.withEnvironment environment).context =
        p.tokenizer.next p.grammar p.context := by
      rw [grammar_withEnvironment,context_withEnvironment,Tokenizer.next_withEnvironment]
      rfl
    rw [read_eq,hnext,read_eq p]
    rcases hn : p.tokenizer.next p.grammar p.context with ⟨e | (_ | token),t⟩
    · rfl
    · have hend := atEnd_withEnvironment environment p.phase
      dsimp only
      rw [show (p.withEnvironment environment).phase = p.phase.withEnvironment environment from
        rfl,hend]
      rcases atEnd p.phase with e | _ | c <;> rfl
    · have hstep := step_withEnvironment environment
        { p with tokenizer := t, phase := settle p.phase token } token
      have hsettle : step { p.withEnvironment environment with
            tokenizer := t
            phase := settle (p.withEnvironment environment).phase token } token =
          (step { p with tokenizer := t, phase := settle p.phase token } token).map
            (Step.withEnvironment environment) := by
        rw [← hstep]
        show step { p.withEnvironment environment with
          tokenizer := t
          phase := settle (p.phase.withEnvironment environment) token } token = _
        rw [settle_withEnvironment]
        rfl
      dsimp only
      rw [hsettle]
      rcases step { p with tokenizer := t, phase := settle p.phase token } token with
        e | (phase | ⟨c,operator⟩)
      · dsimp only [Except.map]
        rw [show (p.withEnvironment environment).phase = p.phase.withEnvironment environment from
          rfl,settle_withEnvironment]
        rfl
      · exact ih _ (Tokenizer.next_fewer hn) { p with tokenizer := t, phase } rfl
      · rfl

@[simp] theorem restart_withEnvironment :
    (p.withEnvironment environment).restart = p.restart.withEnvironment environment := by
  obtain ⟨t,o,settings,phase⟩ := p
  cases phase <;> rfl

end Parser

namespace Parser

variable {environment} {p p' : Parser σ}

/-- All commands are read with one set of variables and with the other, or an error stops both. -/
theorem commands_withEnvironment (environment : Table Text (Variable σ)) (p : Parser σ) :
    (∃ e t, ∀ w, (p.commands w).1 = (.error e,t) ∧
        ((p.withEnvironment environment).commands w).1 = (.error e,t)) ∨
      ∃ tokens tokens' cs t, ReadsLine p tokens cs t ∧
        ReadsLine (p.withEnvironment environment) tokens'
          (cs.map (OpenCommand.closedWith environment)) t := by
  induction hr : p.tokenizer.remaining using
    (WellFounded.induction (r := Tokenizer.Fewer)
      (Prod.lex Nat.lt_wfRel (Prod.lex Nat.lt_wfRel Nat.lt_wfRel)).wf) generalizing p with
  | _ r ih =>
    subst hr
    rcases hread : p.restart.read with ⟨r,p'⟩
    have hread' : (p.withEnvironment environment).restart.read =
        (r.map (Option.map (OpenCommand.closedWith environment)),
          p'.withEnvironment environment) := by
      simp [hread]
    rcases r with e | (_ | ⟨c,_ | operator⟩)
    · refine .inl ⟨e,p'.tokenizer,fun w => ⟨?_,?_⟩⟩
      · rw [commands_error hread]; rfl
      · rw [commands_error hread']; rfl
    · obtain ⟨tokens,hreads⟩ := reads_of_read hread
      obtain ⟨tokens',hreads'⟩ := reads_of_read hread'
      have hline := ReadsLine.empty hreads'
      exact .inr ⟨tokens,tokens',[],p'.tokenizer,.empty hreads,hline⟩
    · obtain ⟨tokens,hreads⟩ := reads_of_read hread
      obtain ⟨tokens',hreads'⟩ := reads_of_read hread'
      have hline := ReadsLine.last hreads'
      exact .inr ⟨tokens,tokens',[(c,none)],p'.tokenizer,.last hreads,hline⟩
    · rcases ih _ (read_fewer (p := p.restart) hread) p' rfl with
        ⟨e,t,hfails⟩ | ⟨more,more',cs,t,hline,hline'⟩
      · refine .inl ⟨e,t,fun w => ⟨?_,?_⟩⟩
        · obtain ⟨command,w',h⟩ := commands_closed_fst w hread
          rw [h,(hfails w').1]
          rfl
        · obtain ⟨command,w',h⟩ := commands_closed_fst w hread'
          rw [h,(hfails w').2]
          rfl
      · obtain ⟨tokens,hreads⟩ := reads_of_read hread
        obtain ⟨tokens',hreads'⟩ := reads_of_read hread'
        exact .inr ⟨_,_,_,_,.closed hreads hline,.closed hreads' hline'⟩

end Parser

end Environment

section Outline

def Word.frame (w : Word) : Text × Bool :=
  (w.raw,w.isQuoted)

/-- A command without what the values of variables may decide: its verb and the texts of its
arguments, and, where an alias is expanded, how the line of the alias falls into words. -/
def Command.outline (c : Command) : Command :=
  if c.kind = .expression then c
  else if c.isAlias then { c with verb := [], args := [], globArgs := [] }
  else { c with verb := [], args := c.args.map fun _ => [] }

/-- Commands that differ at most in what the values of variables may decide. -/
structure Command.SameOutline (c d : Command) : Prop where
  tokens_eq : d.tokens = c.tokens
  kind_eq : d.kind = c.kind
  redirects_eq : d.redirects = c.redirects
  expression_eq : c.kind = .expression → d = c
  args_length : c.isAlias = false → d.args.length = c.args.length
  globArgs_eq : c.isAlias = false → d.globArgs = c.globArgs

@[simp] theorem Command.outline_isAlias (c : Command) : c.outline.isAlias = c.isAlias := by
  unfold outline
  split
  · rfl
  · split <;> rfl

@[simp] theorem Command.outline_kind (c : Command) : c.outline.kind = c.kind := by
  unfold outline
  split
  · rfl
  · split <;> rfl

theorem Command.sameOutline_of_outline {c d : Command} (h : c.outline = d.outline) :
    c.SameOutline d := by
  have hkind : c.kind = d.kind := by rw [← c.outline_kind,h,d.outline_kind]
  have halias : c.isAlias = d.isAlias := by rw [← c.outline_isAlias,h,d.outline_isAlias]
  unfold outline at h
  rw [← hkind,← halias] at h
  by_cases he : c.kind = .expression
  · rw [if_pos he,if_pos he] at h
    subst h
    exact ⟨rfl,rfl,rfl,fun _ => rfl,fun _ => rfl,fun _ => rfl⟩
  · rw [if_neg he,if_neg he] at h
    by_cases ha : c.isAlias = true
    · rw [if_pos ha,if_pos ha] at h
      injection h with _ _ htokens _ hredirects _
      have hno : c.isAlias ≠ false := by rw [ha]; decide
      exact ⟨htokens.symm,hkind.symm,hredirects.symm,fun h' => absurd h' he,
        fun h' => absurd h' hno,fun h' => absurd h' hno⟩
    · rw [if_neg ha,if_neg ha] at h
      injection h with _ hargs htokens _ hredirects hglob
      have hlength := congrArg List.length hargs
      rw [List.length_map,List.length_map] at hlength
      exact ⟨htokens.symm,hkind.symm,hredirects.symm,fun h' => absurd h' he,
        fun _ => hlength.symm,fun _ => hglob.symm⟩

@[simp] theorem placesOf_map {α β : Type} (f : α → β) (p : β → Bool) (xs : List α) :
    placesOf p (xs.map f) = placesOf (fun x => p (f x)) xs := by
  unfold placesOf
  rw [List.zipIdx_map,List.filterMap_map]
  rfl

variable {σ : Type} (environment : Table Text (Variable σ)) (o : Options σ)

theorem Word.extend_frame {current current' : Option Word} (text text' raw : Text)
    (isQuoted : Bool) (h : current.map frame = current'.map frame) :
    (extend current text raw isQuoted).map frame =
      (extend current' text' raw isQuoted).map frame := by
  cases current with
  | none =>
    cases current' with
    | none => rfl
    | some v => cases h
  | some v =>
    cases current' with
    | none => cases h
    | some v' =>
      have hv : frame v = frame v' := Option.some.inj h
      obtain ⟨hraw,hquoted⟩ := Prod.mk.inj hv
      simp only [extend,Option.map_some,frame,hraw,hquoted]

theorem Word.ofFragments_frame (expand : Bool) (fragments : List Fragment)
    {current current' : Option Word} (h : current.map frame = current'.map frame) (w w' : σ) :
    (ofFragments o expand current fragments w).1.map frame =
      (ofFragments (o.withEnvironment environment) expand current' fragments w').1.map frame := by
  have htoList {current current' : Option Word} (h : current.map frame = current'.map frame) :
      current.toList.map frame = current'.toList.map frame := by
    rw [← Option.toList_map,← Option.toList_map,h]
  induction fragments generalizing current current' w w' with
  | nil =>
    rw [ofFragments,ofFragments]
    exact htoList h
  | cons fragment fragments ih =>
    cases fragment with
    | gap =>
      have hrest := ih (Eq.refl (Option.map frame none)) w w'
      rw [ofFragments,ofFragments]
      show (current.toList ++ (ofFragments o expand none fragments w).1).map frame =
        (current'.toList ++ (ofFragments (o.withEnvironment environment) expand none fragments
          w').1).map frame
      simp [htoList h,hrest]
    | whole text =>
      have hrest := ih (Eq.refl (Option.map frame none)) w w'
      rw [ofFragments,ofFragments]
      show (current.toList ++ ⟨text,text,false⟩ ::
          (ofFragments o expand none fragments w).1).map frame =
        (current'.toList ++ ⟨text,text,false⟩ ::
          (ofFragments (o.withEnvironment environment) expand none fragments w').1).map frame
      simp [htoList h,hrest]
    | plain text =>
      rw [ofFragments,ofFragments]
      exact ih (extend_frame text text text false h) w w'
    | quoted text =>
      rw [ofFragments,ofFragments]
      exact ih (extend_frame text text text true h) w w'
    | «variable» name raw =>
      rw [ofFragments,ofFragments]
      -- The value differs, and so may the state that it leaves; the word as written does not.
      cases expand with
      | true => exact ih (extend_frame _ _ raw false h) _ _
      | false => exact ih (extend_frame raw raw raw false h) w w'

theorem Command.alias?_eq_none {c : Command} (h : c.isAlias = false) : c.alias? o = none := by
  unfold alias?
  unfold isAlias at h
  cases hc : c.tokens with
  | nil => rfl
  | cons token tokens =>
    rw [hc] at h
    exact if_neg (of_decide_eq_false h)

/-- What a command without an alias comes to when its words are known. -/
def Command.ofWords (c : Command) (findGlobs : Bool) : List Word → Command
  | [] => c
  | first :: rest =>
    if c.kind = .expression then
      { c with verb := first.raw, args := rest.map (·.raw), globArgs := [] }
    else
      { c with
        verb := first.text
        args := rest.map (·.text)
        globArgs :=
          if findGlobs then placesOf (fun w => !w.isQuoted && hasGlob w.raw) rest else [] }

theorem Command.compile_fst {c : Command} (h : c.alias? o = none) (w : σ) :
    (c.compile o w).1 = c.ofWords o.expandFileExpressions
      (Word.ofTokens o (o.expandVariables && !decide (c.kind = .expression)) c.tokens w).1 := by
  rw [compile]
  simp only [bind,StateT.bind,h]
  rcases Word.ofTokens o (o.expandVariables && !decide (c.kind = .expression)) c.tokens w with
    ⟨_ | ⟨first,rest⟩,w₁⟩
  · rfl
  · dsimp only [ofWords]
    split <;> rfl

theorem Command.ofWords_outline (c : Command) (findGlobs : Bool) {words words' : List Word}
    (hc : c.isAlias = false) (h : words.map Word.frame = words'.map Word.frame) :
    (c.ofWords findGlobs words).outline = (c.ofWords findGlobs words').outline := by
  cases words with
  | nil =>
    cases words' with
    | nil => rfl
    | cons first' rest' => cases h
  | cons first rest =>
    cases words' with
    | nil => cases h
    | cons first' rest' =>
      obtain ⟨hfirst,hrest⟩ := List.cons.inj h
      have hfirst : first.raw = first'.raw := congrArg Prod.fst hfirst
      have hraw : rest.map (·.raw) = rest'.map (·.raw) := by
        have := congrArg (List.map Prod.fst) hrest
        rwa [List.map_map,List.map_map] at this
      have hlength : rest.length = rest'.length := by
        have := congrArg List.length hrest
        rwa [List.length_map,List.length_map] at this
      have hplaces : placesOf (fun w => !w.isQuoted && hasGlob w.raw) rest =
          placesOf (fun w => !w.isQuoted && hasGlob w.raw) rest' := by
        have hmap (words : List Word) :
            placesOf (fun w => !w.isQuoted && hasGlob w.raw) words =
              placesOf (fun f : Text × Bool => !f.2 && hasGlob f.1) (words.map Word.frame) :=
          (placesOf_map Word.frame (fun f => !f.2 && hasGlob f.1) words).symm
        rw [hmap,hmap,hrest]
      by_cases he : c.kind = .expression
      · simp only [ofWords,if_pos he,hfirst,hraw]
      · have hblank (verb : Text) (words : List Word) (globArgs : List Nat) :
            outline { c with verb, args := words.map (·.text), globArgs } =
              { c with verb := [], args := List.replicate words.length [], globArgs } := by
          unfold outline
          rw [if_neg he]
          refine (if_neg (Bool.eq_false_iff.1 hc)).trans ?_
          rw [List.map_const',List.length_map]
        simp only [ofWords,if_neg he,hplaces,hblank,hlength]

/-- A command has one outline, whatever the variables hold and in whatever state they are
looked up. -/
theorem Command.compile_outline {c : Command} (hc : c.kind = .expression → c.isAlias = false)
    (w w' : σ) :
    (c.compile o w).1.outline = (c.compile (o.withEnvironment environment) w').1.outline := by
  cases h : c.isAlias with
  | true =>
    have hk : c.kind ≠ .expression := fun hk => by rw [hc hk] at h; cases h
    have hlost (verb : Text) (args : List Text) (globArgs : List Nat) :
        outline { c with verb, args, globArgs } =
          { c with verb := [], args := [], globArgs := [] } := by
      unfold outline
      rw [if_neg hk]
      exact if_pos h
    obtain ⟨_,_,_,hhere⟩ := c.compile_keeps o w
    obtain ⟨_,_,_,hthere⟩ := c.compile_keeps (o.withEnvironment environment) w'
    rw [hhere,hthere,hlost,hlost]
  | false =>
    have halias (o : Options σ) : c.alias? o = none := alias?_eq_none o h
    have hwords := Word.ofFragments_frame environment o
      (o.expandVariables && !decide (c.kind = .expression)) (Fragment.ofTokens true c.tokens)
      (Eq.refl (Option.map Word.frame none)) w w'
    rw [compile_fst o (halias o),compile_fst _ (halias _)]
    exact ofWords_outline c o.expandFileExpressions h hwords

/-- A command that is read as an expression begins with a variable and not with an alias. -/
theorem OpenCommand.Grows.isAlias {o : Options σ} {settings : Settings} {verb : Token}
    {c : OpenCommand σ} (h : (OpenCommand.ofVerb o settings verb).Grows c)
    (hk : c.command.kind = .expression) : c.command.isAlias = false := by
  have hv : verb.kind = .variable := by
    refine Decidable.byContradiction fun hv => ?_
    rw [h.kind_eq,OpenCommand.ofVerb_eq,if_neg hv] at hk
    unfold OpenCommand.ofSettings at hk
    split at hk <;> cases hk
  obtain ⟨more,hmore⟩ := h.tokens_kept
  rw [OpenCommand.ofVerb_eq,if_pos hv] at hmore
  unfold Command.isAlias
  rw [← hmore]
  exact decide_eq_false (by rw [hv]; decide)

theorem Parser.compileAll_outline (cs : List (OpenCommand σ × Option Operator))
    (hcs : ∀ c ∈ cs, c.1.command.kind = .expression → c.1.command.isAlias = false) (w w' : σ) :
    (compileAll cs w).1.map (CommandTree.Link.map Command.outline) =
      (compileAll (cs.map (OpenCommand.closedWith environment)) w').1.map
        (CommandTree.Link.map Command.outline) := by
  induction cs generalizing w w' with
  | nil => rfl
  | cons c cs ih =>
    have hc := Command.compile_outline environment c.1.options (hcs c (.head _)) w w'
    have hrest := ih (fun c hc => hcs c (.tail _ hc)) (c.1.command.compile c.1.options w).2
      (c.1.command.compile (c.1.options.withEnvironment environment) w').2
    rw [List.map_cons,compileAll_cons,compileAll_cons]
    exact List.cons_eq_cons.2 ⟨congrArg (·,c.2) hc,hrest⟩

end Outline

/-- The variables of a session cannot change the structure of a line, whatever they hold and in
whatever state of the world the line is read. Either both sessions refuse it for the same
reason, or both understand it, with the same text and the same substitution, and their trees
have one shape with the same operators, in which only the texts of words differ, or the words
of an alias. -/
theorem parseLine_withEnvironment {σ : Type} (line : Text) (o : Options σ)
    (environment : Table Text (Variable σ)) (settings : Settings)
    (sub : Option History.Substitution) (w w' : σ) :
    (∃ e, (parseLine line o settings sub w).1 = .error e ∧
        (parseLine line (o.withEnvironment environment) settings sub w').1 = .error e) ∨
      ∃ parsed parsed', (parseLine line o settings sub w).1 = .ok parsed ∧
        (parseLine line (o.withEnvironment environment) settings sub w').1 = .ok parsed' ∧
        parsed'.expanded = parsed.expanded ∧ parsed'.printOnly = parsed.printOnly ∧
        parsed'.lastSubstitution = parsed.lastSubstitution ∧
        CommandTree.CorrespondsOpt Command.SameOutline parsed.tree parsed'.tree := by
  rw [parseLine_fst,parseLine_fst]
  have hnew : Parser.new line (o.withEnvironment environment) settings sub =
      (Parser.new line o settings sub).withEnvironment environment := rfl
  rcases Parser.commands_withEnvironment environment (.new line o settings sub) with
    ⟨e,t,hfails⟩ | ⟨tokens,tokens',cs,t,hline,hline'⟩
  · left
    rw [hnew,(hfails w).1,(hfails w').2]
    exact ⟨e,rfl,rfl⟩
  · -- Both lists of links agree up to the outlines of their commands, and linking looks at no
    -- more than that.
    have hcs : ∀ c ∈ cs, c.1.command.kind = .expression → c.1.command.isAlias = false := by
      intro c hc hk
      obtain ⟨verb,-,hgrows⟩ := hline.opened rfl c hc
      exact hgrows.isAlias hk
    have hhere : ((Parser.new line o settings sub).commands w).1 =
        (.ok (Parser.compileAll cs w).1,t) := by
      rw [hline.commands_eq]
      rfl
    have hthere : ((Parser.new line (o.withEnvironment environment) settings sub).commands w').1 =
        (.ok (Parser.compileAll (cs.map (OpenCommand.closedWith environment)) w').1,t) := by
      rw [hnew,hline'.commands_eq]
      rfl
    have houtline := Parser.compileAll_outline environment cs hcs w w'
    rw [hhere,hthere]
    generalize (Parser.compileAll cs w).1 = links at houtline
    generalize (Parser.compileAll (cs.map (OpenCommand.closedWith environment)) w').1 = links'
      at houtline
    have hlink := congrArg linkLine houtline
    rw [CommandTree.linkLine_map,CommandTree.linkLine_map] at hlink
    dsimp only [Except.bind]
    cases h : linkLine links with
    | error e =>
      rw [h] at hlink
      cases h' : linkLine links' with
      | error e' => rw [h'] at hlink; cases hlink; exact .inl ⟨e,rfl,rfl⟩
      | ok tree' => rw [h'] at hlink; cases hlink
    | ok tree =>
      rw [h] at hlink
      cases h' : linkLine links' with
      | error e' => rw [h'] at hlink; cases hlink
      | ok tree' =>
        rw [h'] at hlink
        exact .inr ⟨_,_,rfl,rfl,rfl,rfl,rfl,CommandTree.correspondsOpt_of_map
          (fun _ _ => Command.sameOutline_of_outline) (Except.ok.inj hlink)⟩

end Realm
