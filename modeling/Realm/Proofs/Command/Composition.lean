import Realm.Proofs.Command.Governing

/-! What a parsed command is made of. Its tokens are the ones that were read, each as it was read,
but that a redirection takes its target along; and what else is known of a command is known from
its tokens. -/
namespace Realm

section Drawing

variable {σ : Type} {Q : Token → Prop} {verb : Token} {args : List Token}

/-- What becomes of a token behind a verb: it is kept as it was read, or it is a redirection and
gets its target. -/
inductive Token.Becomes (s : Token) : Token → Prop
  | kept : s.kind ≠ .history → s.kind ≠ .substitution → (s.kind = .operator → s.value = ['=']) →
    Becomes s s
  | aimed {kind : Redirect.Kind} {target : Text} : s.kind = .operator →
      Redirect.Kind.ofText? s.value = some kind →
    Becomes s { s with redirectTarget := some target }

/-- A command made of tokens that come from ones with a property, and not yet compiled. -/
structure Command.DrawnFrom (Q : Token → Prop) (c : Command) (verb : Token)
    (args : List Token) : Prop extends c.MadeOf verb args where
  drawn : ∀ t ∈ args, ∃ s : Token, Q s ∧ s.Becomes t
  globArgs_eq : c.globArgs = []

theorem OpenCommand.drawnFrom_push {c : OpenCommand σ} (h : c.command.DrawnFrom Q verb args)
    {t : Token} (ht : Q t) (hhistory : t.kind ≠ .history) (hsubstitution : t.kind ≠ .substitution)
    (hoperator : t.kind = .operator → t.value = ['=']) :
    (c.push t).command.DrawnFrom Q verb (args ++ [t]) where
  toMadeOf := madeOf_push h.toMadeOf hoperator
  drawn := List.forall_mem_append.2 ⟨h.drawn,List.forall_mem_singleton.2
    ⟨t,ht,.kept hhistory hsubstitution hoperator⟩⟩
  globArgs_eq := h.globArgs_eq

theorem OpenCommand.drawnFrom_redirect {c : OpenCommand σ} {pending : PendingRedirect}
    (h : c.command.DrawnFrom Q verb args) (hQ : Q pending.token)
    (hk : pending.token.kind = .operator)
    (hkind : Redirect.Kind.ofText? pending.token.value = some pending.kind) :
    (c.redirect pending).command.DrawnFrom Q verb
      (args ++ [{ pending.token with redirectTarget := some (pending.target.getD []) }]) where
  toMadeOf := madeOf_redirect h.toMadeOf hk hkind
  drawn := List.forall_mem_append.2 ⟨h.drawn,List.forall_mem_singleton.2
    ⟨pending.token,hQ,.aimed hk hkind⟩⟩
  globArgs_eq := h.globArgs_eq

namespace ParserPhase

inductive Draws (Q : Token → Prop) (verb : Token) : ParserPhase σ → Prop
  | inCommand {c : OpenCommand σ} {args : List Token} : c.command.DrawnFrom Q verb args →
    Draws Q verb (.inCommand c)
  | redirecting {c : OpenCommand σ} {pending : PendingRedirect} {args : List Token} :
    c.command.DrawnFrom Q verb args → Q pending.token → pending.token.kind = .operator →
      Redirect.Kind.ofText? pending.token.value = some pending.kind →
    Draws Q verb (.awaitingRedirectTarget c pending)

variable {phase : ParserPhase σ} {token : Token}

theorem Draws.settle (h : Draws Q verb phase) (token : Token) :
    Draws Q verb (Parser.settle phase token) := by
  cases h with
  | inCommand hdrawn => exact .inCommand hdrawn
  | redirecting hdrawn hQ hk hkind =>
    unfold Parser.settle
    dsimp only
    split
    · exact .inCommand (OpenCommand.drawnFrom_redirect hdrawn hQ hk hkind)
    · exact .redirecting hdrawn hQ hk hkind

theorem Draws.step {p : Parser σ} (h : Draws Q verb p.phase) (ht : Q token) {s : Parser.Step σ}
    (hs : p.step token = .ok s) :
    (∃ phase, s = .goOn phase ∧ Draws Q verb phase) ∨
      ∃ d operator args, s = .close d operator ∧ d.command.DrawnFrom Q verb args := by
  unfold Parser.step at hs
  cases hphase : p.phase with
  | inCommand c =>
    rw [hphase] at h hs
    cases h with
    | @inCommand _ args hdrawn =>
    cases Parser.stepInCommand_placed hs with
    | skipped => exact .inl ⟨_,rfl,.inCommand hdrawn⟩
    | pushed hhistory hsubstitution hoperator =>
      exact .inl ⟨_,rfl,.inCommand
        (OpenCommand.drawnFrom_push hdrawn ht hhistory hsubstitution hoperator)⟩
    | redirects hk hkind => exact .inl ⟨_,rfl,.redirecting hdrawn ht hk hkind⟩
    | closes => exact .inr ⟨_,_,args,rfl,hdrawn⟩
  | awaitingRedirectTarget c pending =>
    rw [hphase] at h hs
    cases h with
    | redirecting hdrawn hQ hk hkind =>
    obtain ⟨_,rfl⟩ := Parser.stepRedirectTarget_waits hs
    exact .inl ⟨_,rfl,.redirecting hdrawn hQ hk hkind⟩
  | awaitingVerb | closed | done => rw [hphase] at h; cases h

theorem Draws.atEnd (h : Draws Q verb phase) {out : Option (OpenCommand σ)}
    (ha : Parser.atEnd phase = .ok out) :
    ∃ d args, out = some d ∧ d.command.DrawnFrom Q verb args := by
  cases h with
  | @inCommand c args hdrawn =>
    cases ha
    exact ⟨c,args,rfl,hdrawn⟩
  | redirecting hdrawn hQ hk hkind =>
    unfold Parser.atEnd at ha
    dsimp only at ha
    split at ha
    · cases ha
      exact ⟨_,_,rfl,OpenCommand.drawnFrom_redirect hdrawn hQ hk hkind⟩
    · cases ha

end ParserPhase

/-- A command that was opened at a token with a property, and made of such tokens. -/
def OpenCommand.Drawn (o : Options σ) (settings : Settings) (Q : Token → Prop)
    (c : OpenCommand σ) : Prop :=
  ∃ s args, Q s ∧ s.isVerb = true ∧ (ofVerb o settings s).Grows c ∧
    c.command.DrawnFrom Q (promote o s) args

theorem OpenCommand.ofVerb_drawnFrom (o : Options σ) (settings : Settings) (Q : Token → Prop)
    (s : Token) : (ofVerb o settings s).command.DrawnFrom Q (promote o s) [] := by
  have hopened (verb : Token) (kind : Command.Kind) :
      (Command.opened verb kind).DrawnFrom Q verb [] :=
    ⟨⟨rfl,rfl,List.forall_mem_nil _⟩,List.forall_mem_nil _,rfl⟩
  rw [ofVerb_eq]
  split
  · next hv =>
    rw [show promote o s = s by simp [promote,hv]]
    exact hopened s _
  · unfold ofSettings
    split
    · exact hopened _ _
    · exact hopened _ _

theorem OpenCommand.ofVerb_kind (o : Options σ) (settings : Settings) (s : Token) :
    (ofVerb o settings s).command.kind = .expression ↔ s.kind = .variable := by
  rw [ofVerb_eq]
  split
  · next hv => exact iff_of_true rfl hv
  · next hv =>
    refine iff_of_false ?_ hv
    unfold ofSettings
    split <;> exact nofun

namespace Parser

variable {p p' : Parser σ} {tokens : List Token} {out : Option (OpenCommand σ × Option Operator)}

theorem Reads.drawn_within (h : Reads p tokens out p') (hp : p.phase.Draws Q verb)
    (hQ : ∀ t ∈ tokens, Q t) :
    ∃ d operator args, out = some (d,operator) ∧ d.command.DrawnFrom Q verb args := by
  induction h with
  | ends _ ha =>
    obtain ⟨d,args,rfl,hdrawn⟩ := hp.atEnd ha
    exact ⟨d,none,args,rfl,hdrawn⟩
  | closes _ hs =>
    rcases (hp.settle _).step (hQ _ (.head _)) hs with ⟨_,hgo,-⟩ | ⟨_,_,args,hclose,hdrawn⟩
    · cases hgo
    · cases hclose
      exact ⟨_,_,args,rfl,hdrawn⟩
  | goesOn _ hs _ ih =>
    rcases (hp.settle _).step (hQ _ (.head _)) hs with ⟨_,hgo,hdraws⟩ | ⟨_,_,_,hclose,-⟩
    · cases hgo
      exact ih hdraws fun t ht => hQ t (.tail _ ht)
    · cases hclose

theorem Reads.drawn (h : Reads p tokens out p') (hp : p.phase.Between) (hQ : ∀ t ∈ tokens, Q t) :
    ∀ c operator, out = some (c,operator) → c.Drawn p.options p.settings Q := by
  induction h with
  | @ends p t c _ ha =>
    cases hphase : p.phase with
    | awaitingVerb | closed | done =>
      rw [hphase] at ha
      cases ha
      exact fun _ _ he => by cases he
    | inCommand | awaitingRedirectTarget => rw [hphase] at hp; cases hp
  | closes _ hs => rcases step_between hp hs with ⟨hgo,-⟩ | ⟨hgo,-⟩ <;> cases hgo
  | @goesOn p p' t token phase tokens out _ hs hrest ih =>
    obtain ⟨htoken,htokens⟩ := List.forall_mem_cons.1 hQ
    rcases step_between hp hs with ⟨hgo,-⟩ | ⟨hgo,hverb⟩
    · cases hgo
      exact ih .awaitingVerb htokens
    · cases hgo
      have hopened := OpenCommand.ofVerb_drawnFrom p.options p.settings Q token
      rintro c operator rfl
      obtain ⟨_,_,args,hout,hdrawn⟩ := hrest.drawn_within (.inCommand hopened) htokens
      cases hout
      obtain ⟨_,_,hout,hgrows⟩ := hrest.grows (.inCommand _)
      cases hout
      exact ⟨token,args,htoken,hverb,hgrows,hdrawn⟩

theorem ReadsLine.drawn {t : Tokenizer} {cs : List (OpenCommand σ × Option Operator)}
    (h : ReadsLine p tokens cs t) (hp : p.phase.current? = none) (hQ : ∀ t ∈ tokens, Q t) :
    ∀ c ∈ cs, c.1.Drawn p.options p.settings Q := by
  induction h with
  | empty => exact fun c hc => by cases hc
  | last h =>
    intro c hc
    cases List.mem_singleton.1 hc
    exact h.drawn (restart_between hp).1 hQ _ _ rfl
  | closed h _ ih =>
    obtain ⟨htokens,hmore⟩ := List.forall_mem_append.1 hQ
    obtain ⟨hoptions,hsettings,hphase⟩ := h.session
    intro c hc
    rcases List.mem_cons.1 hc with rfl | hc
    · exact h.drawn (restart_between hp).1 htokens _ _ rfl
    · rw [hoptions,hsettings] at ih
      exact ih hphase hmore c hc

end Parser

end Drawing

section Unaimed

variable {σ : Type} {o : Options σ}

theorem Tokenizer.historyTokens_unaimed {ctx : LexContext} {previous : Option Token.Kind}
    {start : Nat} {text : Text} {tokens : List Token}
    (h : historyTokens o ctx previous start text = .ok tokens) :
    ∀ t ∈ tokens, t.redirectTarget = none := by
  fun_induction historyTokens o ctx previous start text generalizing tokens with
  | case1 => cases h; exact List.forall_mem_nil _
  | case2 ctx previous start c t ih =>
    cases hscan : Lexeme.scan o ctx previous start c t with
    | error e => rw [hscan] at h; cases h
    | ok lexeme =>
      rw [hscan] at h
      simp only [bind,Except.bind] at h
      split at h
      · cases h
      next more hmore =>
      cases h
      exact List.forall_mem_cons.2 ⟨rfl,ih lexeme hmore⟩

theorem Tokenizer.next_unaimed {ctx : LexContext} {t t' : Tokenizer} {token : Token}
    (hstack : ∀ s ∈ t.stack, s.redirectTarget = none)
    (h : t.next o ctx = (.ok (some token),t')) :
    token.redirectTarget = none ∧ ∀ s ∈ t'.stack, s.redirectTarget = none := by
  rcases next_cases h with ⟨hs,-⟩ | ⟨c,rest,u,-,-,hd,rfl⟩
  · exact List.forall_mem_cons.1 (hs ▸ hstack)
  · cases hd with
    | referred _ _ htokens => exact ⟨rfl,historyTokens_unaimed htokens⟩
    | replaced | marked | scanned => exact ⟨rfl,hstack⟩

end Unaimed

section Globs

variable {σ : Type}

theorem placesOf_ascend {α : Type} (p : α → Bool) (xs : List α) :
    (placesOf p xs).Pairwise (· < ·) := by
  have hindices : (xs.zipIdx.map Prod.snd).Pairwise (· < ·) := by
    rw [List.zipIdx_map_snd]
    exact List.pairwise_lt_range'
  refine List.pairwise_filterMap.2 ((List.pairwise_map.1 hindices).imp ?_)
  rintro ⟨x,i⟩ ⟨y,j⟩ hij a ha b hb
  dsimp only at ha hb
  split at ha <;> split at hb <;> cases ha <;> cases hb
  exact hij

theorem lt_of_mem_placesOf {α : Type} {p : α → Bool} {xs : List α} {i : Nat}
    (h : i ∈ placesOf p xs) : i < xs.length := by
  obtain ⟨⟨x,j⟩,hmem,hj⟩ := List.mem_filterMap.1 h
  dsimp only at hj
  split at hj <;> cases hj
  exact List.snd_lt_of_mem_zipIdx hmem

def Command.GlobsInOrder (c : Command) : Prop :=
  c.globArgs.Pairwise (· < ·) ∧ ∀ i ∈ c.globArgs, i < c.args.length

theorem Command.globsInOrder_nil {c : Command} (h : c.globArgs = []) : c.GlobsInOrder := by
  unfold GlobsInOrder
  rw [h]
  exact ⟨.nil,List.forall_mem_nil _⟩

theorem Command.globsInOrder_places {α : Type} {c : Command} {p : α → Bool} {xs : List α}
    (h : c.globArgs = placesOf p xs) (hargs : c.args.length = xs.length) : c.GlobsInOrder := by
  unfold GlobsInOrder
  rw [h,hargs]
  exact ⟨placesOf_ascend p xs,fun i hi => lt_of_mem_placesOf hi⟩

theorem Command.compile_globsInOrder (o : Options σ) {c : Command} (hc : c.globArgs = []) (w : σ) :
    (c.compile o w).1.GlobsInOrder := by
  rw [compile]
  simp only [bind,StateT.bind]
  rcases Word.ofTokens o (o.expandVariables && !decide (c.kind = .expression)) c.tokens w with
    ⟨_ | ⟨first,rest⟩,w₁⟩
  · exact globsInOrder_nil hc
  · dsimp only
    cases c.alias? o with
    | some expansion =>
      by_cases hfind : o.expandFileExpressions = true
      · exact globsInOrder_places (if_pos hfind) rfl
      · exact globsInOrder_nil (if_neg hfind)
    | none =>
      by_cases hk : c.kind = .expression
      · simp only [hk]
        exact globsInOrder_nil rfl
      · simp only [hk]
        by_cases hfind : o.expandFileExpressions = true
        · exact globsInOrder_places (if_pos hfind) (List.length_map _)
        · exact globsInOrder_nil (if_neg hfind)

theorem Parser.mem_compileAll {cs : List (OpenCommand σ × Option Operator)} {w : σ}
    {l : CommandTree.Link} (h : l ∈ (compileAll cs w).1) :
    ∃ c ∈ cs, ∃ w', l = ((c.1.command.compile c.1.options w').1,c.2) :=
  mem_mapM h

end Globs

def Token.isRedirect (t : Token) : Bool :=
  t.kind = .operator && (Redirect.Kind.ofText? t.value).isSome

/-- What is known of every command of a line. -/
structure Command.WellFormed (c : Command) : Prop where
  /-- The verb comes first, and only a variable opens an expression. -/
  opens : ∃ verb args, c.tokens = verb :: args ∧ verb.isVerb = true ∧
    (c.kind = .expression ↔ verb.kind = .variable)
  no_history : ∀ t ∈ c.tokens, t.kind ≠ .history ∧ t.kind ≠ .substitution
  operators : ∀ t ∈ c.tokens, t.kind = .operator → t.value = ['='] ∨ t.isRedirect = true
  /-- The redirections are found among the tokens one by one, each with its target. -/
  redirects_eq : (c.tokens.filter Token.isRedirect).map
      (fun t => (Redirect.Kind.ofText? t.value,t.redirectTarget)) =
    c.redirects.map fun r => (some r.kind,some r.target)
  targets : ∀ t ∈ c.tokens, t.redirectTarget.isSome → t.isRedirect = true
  globs : c.GlobsInOrder

section WellFormed

variable {σ : Type} {s t : Token}

/-- A token behind the verb is a redirection with its target, or it has nothing to do with
one. -/
theorem Token.Becomes.redirect (h : s.Becomes t) (hs : s.redirectTarget = none) :
    t.isRedirect = false ∧ t.redirectTarget = none ∧ t.redirect? = none ∨
      ∃ kind target, t.isRedirect = true ∧ Redirect.Kind.ofText? t.value = some kind ∧
        t.redirectTarget = some target ∧ t.redirect? = some ⟨kind,target⟩ := by
  cases h with
  | kept _ _ hoperator =>
    have hno : Redirect.Kind.ofText? ['='] = none := by decide
    left
    by_cases hk : s.kind = .operator
    · simp [isRedirect,redirect?,hk,hoperator hk,hno,hs]
    · simp [isRedirect,redirect?,hk,hs]
  | @aimed kind target hk hkind =>
    exact .inr ⟨kind,target,by simp [isRedirect,hk,hkind],hkind,rfl,by simp [redirect?,hk,hkind]⟩

theorem Token.Becomes.kind_eq (h : s.Becomes t) : t.kind = s.kind ∧ t.value = s.value := by
  cases h <;> exact ⟨rfl,rfl⟩

theorem Token.Becomes.not_history (h : s.Becomes t) :
    t.kind ≠ .history ∧ t.kind ≠ .substitution := by
  cases h with
  | kept hhistory hsubstitution => exact ⟨hhistory,hsubstitution⟩
  | aimed hk => constructor <;> (rw [hk]; decide)

theorem Token.redirects_eq {args : List Token}
    (h : ∀ t ∈ args, ∃ s : Token, s.redirectTarget = none ∧ s.Becomes t) :
    (args.filter isRedirect).map (fun t => (Redirect.Kind.ofText? t.value,t.redirectTarget)) =
      (args.filterMap redirect?).map fun r => (some r.kind,some r.target) := by
  induction args with
  | nil => rfl
  | cons t args ih =>
    obtain ⟨⟨s,hs,hbecomes⟩,hargs⟩ := List.forall_mem_cons.1 h
    have hrest := ih hargs
    rcases hbecomes.redirect hs with ⟨hno,-,hnone⟩ | ⟨kind,target,hyes,hkind,htarget,hsome⟩
    · rw [List.filter_cons_of_neg (by simp [hno]),List.filterMap_cons_none hnone,hrest]
    · simp [List.filter_cons_of_pos hyes,List.filterMap_cons_some hsome,hrest,hkind,htarget]

theorem OpenCommand.promote_verb (o : Options σ) (h : s.isVerb = true) :
    (promote o s).isVerb = true ∧ ((promote o s).kind = .variable ↔ s.kind = .variable) ∧
      (promote o s).redirectTarget = s.redirectTarget := by
  unfold promote
  split
  · next hpromoted =>
    have hword : s.kind = .word := by
      simp only [Bool.and_eq_true,decide_eq_true_eq] at hpromoted
      exact hpromoted.1.1
    exact ⟨rfl,by simp [hword],rfl⟩
  · exact ⟨h,.rfl,rfl⟩

theorem Token.not_operator_of_isVerb (h : s.isVerb = true) :
    s.kind ≠ .operator ∧ s.kind ≠ .history ∧ s.kind ≠ .substitution := by
  unfold isVerb at h
  refine ⟨?_,?_,?_⟩ <;> intro hk <;> simp [hk] at h

/-- A command made of tokens without targets is well formed once it is compiled. -/
theorem OpenCommand.Drawn.wellFormed {o : Options σ} {settings : Settings} {c : OpenCommand σ}
    (h : c.Drawn o settings (·.redirectTarget = none)) (w : σ) :
    (c.command.compile c.options w).1.WellFormed := by
  obtain ⟨s,args,hs,hverb,hgrows,hdrawn⟩ := h
  obtain ⟨hisVerb,hvariable,htarget⟩ := promote_verb o hverb
  obtain ⟨hoperator,hhistory,hsubstitution⟩ := Token.not_operator_of_isVerb hisVerb
  have hglobs := Command.compile_globsInOrder c.options hdrawn.globArgs_eq w
  obtain ⟨verb,texts,globArgs,hcompiled⟩ := Command.compile_keeps c.options c.command w
  rw [hcompiled] at hglobs ⊢
  have hno : (promote o s).isRedirect = false := by simp [Token.isRedirect,hoperator]
  have hkind : c.command.kind = .expression ↔ (promote o s).kind = .variable := by
    rw [hgrows.kind_eq,ofVerb_kind,hvariable]
  refine ⟨⟨promote o s,args,hdrawn.tokens_eq,hisVerb,hkind⟩,?_,?_,?_,?_,hglobs⟩
  · show ∀ t ∈ c.command.tokens, _
    rw [hdrawn.tokens_eq]
    refine List.forall_mem_cons.2 ⟨⟨hhistory,hsubstitution⟩,fun t ht => ?_⟩
    obtain ⟨s,-,hbecomes⟩ := hdrawn.drawn t ht
    exact hbecomes.not_history
  · show ∀ t ∈ c.command.tokens, _
    rw [hdrawn.tokens_eq]
    refine List.forall_mem_cons.2 ⟨fun hk => absurd hk hoperator,fun t ht hk => ?_⟩
    exact (hdrawn.operators t ht hk).imp id fun hsome => by simp [Token.isRedirect,hk,hsome]
  · show (c.command.tokens.filter Token.isRedirect).map _ = c.command.redirects.map _
    rw [hdrawn.tokens_eq,hdrawn.redirects_eq,List.filter_cons_of_neg (by simp [hno])]
    exact Token.redirects_eq hdrawn.drawn
  · show ∀ t ∈ c.command.tokens, _
    rw [hdrawn.tokens_eq]
    refine List.forall_mem_cons.2 ⟨fun hsome => ?_,fun t ht hsome => ?_⟩
    · rw [htarget,hs] at hsome
      cases hsome
    · obtain ⟨s,hs,hbecomes⟩ := hdrawn.drawn t ht
      rcases hbecomes.redirect hs with ⟨-,hnone,-⟩ | ⟨_,_,hyes,-⟩
      · rw [hnone] at hsome
        cases hsome
      · exact hyes

end WellFormed

/-- A tree is made of the links of its line, of which only the last has no operator behind it. -/
theorem CommandTree.parts_of_linkLine {links : List Link} {tree : CommandTree}
    (h : linkLine links = .ok (some tree)) :
    ∃ before last, links = before ++ [(last,none)] ∧ (∀ l ∈ before, l.2 ≠ none) ∧
      (tree.parts.filter (·.operator = none)).map command = [last] := by
  have hlink := link_of_linkLine h
  have hlinkable := linkable_of_link hlink
  have hne : links ≠ [] := by
    rintro rfl
    cases hlink
  rcases hlast : links.getLast hne with ⟨c,operator⟩
  have hsplit : links = links.dropLast ++ [(c,operator)] := by
    rw [← hlast,List.dropLast_concat_getLast]
  obtain rfl : operator = none := by
    rw [linkLine,List.getLast?_eq_some_getLast hne,hlast] at h
    cases operator with
    | none => rfl
    | some operator => cases h
  refine ⟨links.dropLast,c,hsplit,hlinkable.1,?_⟩
  -- Of the links only the last passes the filter, so of the parts only one does.
  have hlinks : links.filter (·.2 = none) = [(c,none)] := by
    rw [hsplit,List.filter_append,List.filter_eq_nil_iff.2]
    · rfl
    · exact fun l hl hnone => hlinkable.1 l hl (of_decide_eq_true hnone)
  have hperm := (parts_of_link hlink).filter (·.2 = none)
  rw [hlinks,List.filter_map] at hperm
  have hone := congrArg (List.map Prod.fst) (List.perm_singleton.1 hperm)
  rw [List.map_map] at hone
  exact hone

/-- Whatever is read, the commands of the tree are well formed, output goes on exactly where a
pipe says so, and one command has no operator behind it: the one that was read last. -/
theorem parseLine_wellFormed {σ : Type} {line : Text} {o : Options σ} {settings : Settings}
    {sub : Option History.Substitution} {parsed : ParsedLine} {tree : CommandTree} {w w' : σ}
    (h : parseLine line o settings sub w = (.ok parsed,w')) (htree : parsed.tree = some tree) :
    (∀ part ∈ tree.parts, part.command.WellFormed ∧
      (part.pipeTarget.isSome ↔ part.operator = some .pipe ∨ part.operator = some .pipeAll)) ∧
    ∃ read last t,
      (Parser.new line o settings sub).commands w = ((.ok (read ++ [(last,none)]),t),w') ∧
      (∀ l ∈ read, l.2 ≠ none) ∧
      (tree.parts.filter (·.operator = none)).map CommandTree.command = [last] := by
  obtain ⟨links,t,hcommands,hlink,-⟩ := parseLine_ok h
  rw [htree] at hlink
  obtain ⟨tokens,cs,hline⟩ := Parser.readsLine_of_commands hcommands
  have hlinks : (Parser.compileAll cs w).1 = links := by
    have hcommands := hcommands
    rw [hline.commands_eq] at hcommands
    exact Except.ok.inj (congrArg (fun r => r.1.1) hcommands)
  have hunaimed : ∀ s ∈ tokens, s.redirectTarget = none :=
    hline.runs.forall (I := fun t => ∀ s ∈ t.stack, s.redirectTarget = none)
      (P := fun _ => True) (fun _ _ _ _ _ hstack hn _ => Tokenizer.next_unaimed hstack hn)
      (List.forall_mem_nil _) fun _ _ => trivial
  have hcs := hline.drawn rfl hunaimed
  have hwell : ∀ l ∈ links, l.1.WellFormed := by
    intro l hl
    obtain ⟨c,hc,w',rfl⟩ := Parser.mem_compileAll (hlinks ▸ hl)
    exact (hcs c hc).wellFormed w'
  refine ⟨fun part hpart => ⟨?_,?_⟩,?_⟩
  · exact CommandTree.has_of_link (P := fun c _ => c.WellFormed)
      (CommandTree.link_of_linkLine hlink) hwell part hpart
  · exact (CommandTree.piped_of_link (CommandTree.link_of_linkLine hlink) part hpart).isSome_iff
  · obtain ⟨read,last,rfl,hread,hlast⟩ := CommandTree.parts_of_linkLine hlink
    exact ⟨read,last,t,hcommands,hread,hlast⟩

/-- A command whose output is led to a file. -/
theorem parseLine_wellFormed_redirect :
    ∃ parsed tree, parseLine ['a','>','b'] ({} : Options Unit) (fun _ => none) none () =
        (.ok parsed,()) ∧ parsed.tree = some tree ∧
      tree.command.redirects = [⟨.output,['b']⟩] ∧ tree.command.WellFormed := by
  let verb : Token := ⟨.word,['a'],.input,0,1,none⟩
  let mark : Token := ⟨.operator,['>'],.input,1,2,none⟩
  let c : OpenCommand Unit :=
    OpenCommand.redirect ⟨.opened verb .game,{}⟩ ⟨mark,.output,some ['b']⟩
  let t₁ : Tokenizer := ⟨['a'],['>','b'],[],some .word,none,false,false,['a']⟩
  let t₂ : Tokenizer := ⟨['a','>'],['b'],[],some .operator,none,false,false,['a','>']⟩
  let t₃ : Tokenizer := ⟨['a','>','b'],[],[],some .word,none,false,false,['a','>','b']⟩
  have hreads : ∃ tokens p, (Parser.new ['a','>','b'] ({} : Options Unit) (fun _ => none)
      none).restart.Reads tokens (some (c,none)) p :=
    ⟨_,_,.goesOn (t := t₁) rfl rfl <| .goesOn (t := t₂) rfl rfl <| .goesOn (t := t₃) rfl rfl <|
      .ends (t := t₃) (c := some c) rfl rfl⟩
  obtain ⟨_,_,hreads⟩ := hreads
  have hparse := parseLine_last hreads.read_eq ()
  obtain ⟨_,_,_,hk⟩ := Command.compile_keeps c.options c.command ()
  refine ⟨_,_,hparse,rfl,?_,((parseLine_wellFormed hparse rfl).1 _ (.head _)).1⟩
  show (c.command.compile c.options ()).1.redirects = _
  rw [hk]
  rfl

end Realm
