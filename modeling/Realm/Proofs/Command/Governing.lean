import Realm.Proofs.Command.Covering
import Realm.Proofs.Command.Replay
import Realm.Proofs.Command.Unlinking
import Realm.Proofs.Repetition

/-! The grammar of a verb and the tokens behind it. What is read after the verb is read by the
verb's own grammar. What a history reference has brought in along with the verb was cut before
the verb was known, and stays as it was cut. -/
namespace Realm

/-- Whether a grammar makes tokens of this kind and text. -/
def Grammar.makes (g : Grammar) (kind : Token.Kind) (value : Text) : Bool :=
  match kind with
  | .string => g.allowQuoting
  | .backtick => g.expandBackticks
  | .variable => g.expandEnvironment
  | .operator =>
    if value = ['='] then true
    else if (Redirect.Kind.ofText? value).isSome then g.allowFileAccess
    else g.allowPipelining
  | _ => true

section Scan

variable {σ : Type} {o : Options σ} {ctx : LexContext} {previous : Option Token.Kind} {start : Nat}
  {c : Char} {t : Text} {lexeme : Lexeme}

theorem Lexeme.special_makes {g : Grammar} (h : special g ctx start c t = .ok lexeme) :
    g.makes lexeme.kind lexeme.value = true := by
  unfold special at h
  split at h
  · split at h
    · next he =>
      cases hd : dollar? t with
      | none => rw [hd] at h; cases h; rfl
      | some l =>
        rw [hd] at h
        cases h
        rw [Option.getD_some,dollar?_kind hd]
        exact he
    · cases h; rfl
  · split at h
    · next ha => cases h; exact ha
    · cases h; rfl
  · split at h
    · next ha => split at h <;> cases h <;> exact ha
    · cases h; rfl
  · split at h
    · next ha => split at h <;> cases h <;> exact ha
    · cases h; rfl
  · split at h
    · next ha => split at h <;> cases h <;> exact ha
    · cases h; rfl
  · split at h
    · next ha => cases h; exact ha
    · cases h; rfl
  · split at h
    · next ha => rw [quoted_kind h]; exact ha
    · cases h; rfl
  · split at h
    · next ha => rw [quoted_kind h]; exact ha
    · cases h; rfl
  · split at h
    · next ha => rw [quoted_kind h]; exact ha
    · cases h; rfl
  · split at h
    · rw [escape_kind h]; rfl
    · cases h; rfl
  · split at h <;> cases h <;> rfl
  · cases h; rfl

theorem Lexeme.scan_makes (h : scan o ctx previous start c t = .ok lexeme) :
    o.makes lexeme.kind lexeme.value = true := by
  unfold scan at h
  split at h
  · cases h; rfl
  · split at h
    · next member hm =>
      cases h
      unfold member? at hm
      split at hm
      · obtain ⟨name,-,rfl⟩ := Option.map_eq_some_iff.1 hm
        rfl
      · cases hm
    · split at h
      · cases h; rfl
      · split at h
        · next number hn =>
          cases h
          unfold number? at hn
          split at hn
          · dsimp only at hn
            split at hn
            · split at hn <;> cases hn
              rfl
            · cases hn; rfl
          · cases hn
        · split at h
          · cases h; rfl
          · exact special_makes h

end Scan

section Spliced

variable {σ : Type} {o : Options σ} {ctx : LexContext}

/-- Tokens of a text that a history reference stands for, cut by one grammar. -/
structure Token.CutBy (g : Grammar) (tokens : List Token) : Prop where
  made : ∀ t ∈ tokens, g.makes t.kind t.value = true
  brought : ∀ t ∈ tokens, t.source = .history
  ordered : tokens.Pairwise (·.stop ≤ ·.start)

theorem Token.CutBy.nil (g : Grammar) : CutBy g [] :=
  ⟨nofun,nofun,.nil⟩

theorem Token.CutBy.tail {g : Grammar} {t : Token} {ts : List Token} (h : CutBy g (t :: ts)) :
    CutBy g ts :=
  ⟨fun s hs => h.made s (.tail _ hs),fun s hs => h.brought s (.tail _ hs),
    (List.pairwise_cons.1 h.ordered).2⟩

theorem Tokenizer.historyTokens_cutBy {previous : Option Token.Kind} {start : Nat} {text : Text}
    {tokens : List Token} (h : historyTokens o ctx previous start text = .ok tokens) :
    Token.CutBy o.toGrammar tokens ∧ ∀ t ∈ tokens, start ≤ t.start := by
  fun_induction historyTokens o ctx previous start text generalizing tokens with
  | case1 =>
    cases h
    exact ⟨.nil _,nofun⟩
  | case2 ctx previous start c t ih =>
    cases hscan : Lexeme.scan o ctx previous start c t with
    | error e => rw [hscan] at h; cases h
    | ok lexeme =>
      rw [hscan] at h
      simp only [bind,Except.bind] at h
      split at h
      · cases h
      next more hmore =>
      cases h
      obtain ⟨hcut,hstart⟩ := ih lexeme hmore
      refine ⟨⟨?_,?_,?_⟩,?_⟩
      · exact List.forall_mem_cons.2 ⟨Lexeme.scan_makes hscan,hcut.made⟩
      · exact List.forall_mem_cons.2 ⟨rfl,hcut.brought⟩
      · exact List.pairwise_cons.2 ⟨hstart,hcut.ordered⟩
      · exact List.forall_mem_cons.2
          ⟨Nat.le_refl _,fun s hs => Nat.le_trans (Nat.le_add_right _ _) (hstart s hs)⟩

/-- A token that is given out was waiting, or is made by the grammar of the moment; the tokens
that wait behind a new one have been brought in by it. -/
theorem Tokenizer.next_cutBy {t t' : Tokenizer} {token : Token}
    (h : t.next o ctx = (.ok (some token),t')) :
    t.stack = token :: t'.stack ∨
      t.stack = [] ∧ o.makes token.kind token.value = true ∧ Token.CutBy o.toGrammar t'.stack ∧
        (token.kind = .history ∨ t'.stack = []) := by
  rcases next_cases h with ⟨hstack,-⟩ | ⟨c,rest,u,hs,-,hd,rfl⟩
  · exact .inl hstack
  · refine .inr ⟨hs,?_⟩
    cases hd with
    | replaced => exact ⟨rfl,hs ▸ .nil _,.inr hs⟩
    | marked => exact ⟨rfl,hs ▸ .nil _,.inr hs⟩
    | referred _ _ htokens =>
      have hcut := (historyTokens_cutBy htokens).1
      exact ⟨rfl,⟨hcut.made,hcut.brought,hcut.ordered⟩,.inl rfl⟩
    | scanned hscan => exact ⟨Lexeme.scan_makes hscan,hs ▸ .nil _,.inr hs⟩

end Spliced

section Split

variable {A G : Token → Prop} {ts : List Token}

/-- Tokens of which the first have one property and the others another. -/
def Token.Split (A G : Token → Prop) (ts : List Token) : Prop :=
  ∃ along own, ts = along ++ own ∧ (∀ t ∈ along, A t) ∧ ∀ t ∈ own, G t

namespace Token.Split

theorem of_forall (h : ∀ t ∈ ts, A t) : Split A G ts :=
  ⟨ts,[],(List.append_nil ts).symm,h,nofun⟩

theorem append (h : Split A G ts) {us : List Token} (hus : ∀ t ∈ us, G t) :
    Split A G (ts ++ us) := by
  obtain ⟨along,own,rfl,halong,hown⟩ := h
  exact ⟨along,own ++ us,List.append_assoc _ _ _,halong,List.forall_mem_append.2 ⟨hown,hus⟩⟩

theorem sublist {us : List Token} (h : Split A G ts) (hus : us.Sublist ts) : Split A G us := by
  obtain ⟨along,own,rfl,halong,hown⟩ := h
  obtain ⟨along',own',rfl,hsub,hsub'⟩ := List.sublist_append_iff.1 hus
  exact ⟨along',own',rfl,fun t ht => halong t (hsub.subset ht),fun t ht => hown t (hsub'.subset ht)⟩

theorem cons_iff {t : Token} : Split A G (t :: ts) ↔ A t ∧ Split A G ts ∨ ∀ s ∈ t :: ts, G s := by
  constructor
  · rintro ⟨_ | ⟨s,along⟩,own,heq,halong,hown⟩
    · cases heq
      exact .inr hown
    · cases heq
      obtain ⟨hs,halong⟩ := List.forall_mem_cons.1 halong
      exact .inl ⟨hs,along,own,rfl,halong,hown⟩
  · rintro (⟨ht,along,own,rfl,halong,hown⟩ | h)
    · exact ⟨t :: along,own,rfl,List.forall_mem_cons.2 ⟨ht,halong⟩,hown⟩
    · exact ⟨[],_,rfl,nofun,h⟩

theorem replace {before after : List Token} {t t' : Token} (h : Split A G (before ++ t :: after))
    (hA : A t → A t') (hG : G t → G t') : Split A G (before ++ t' :: after) := by
  induction before with
  | nil =>
    rcases cons_iff.1 h with ⟨ht,hafter⟩ | hown
    · exact cons_iff.2 (.inl ⟨hA ht,hafter⟩)
    · obtain ⟨ht,hafter⟩ := List.forall_mem_cons.1 hown
      exact cons_iff.2 (.inr (List.forall_mem_cons.2 ⟨hG ht,hafter⟩))
  | cons s before ih =>
    rcases cons_iff.1 h with ⟨hs,hrest⟩ | hown
    · exact cons_iff.2 (.inl ⟨hs,ih hrest⟩)
    · obtain ⟨hs,hrest⟩ := List.forall_mem_cons.1 hown
      obtain ⟨hbefore,hrest⟩ := List.forall_mem_append.1 hrest
      obtain ⟨ht,hafter⟩ := List.forall_mem_cons.1 hrest
      exact cons_iff.2 (.inr (List.forall_mem_cons.2 ⟨hs,List.forall_mem_append.2
        ⟨hbefore,List.forall_mem_cons.2 ⟨hG ht,hafter⟩⟩⟩))

end Token.Split

end Split

section Held

variable {σ : Type} {A G : Token → Prop} {verb : Token}

def Token.redirect? (t : Token) : Option Redirect :=
  if t.kind = .operator then
    (Redirect.Kind.ofText? t.value).map (⟨·,t.redirectTarget.getD []⟩)
  else none

/-- A command made of its verb and what has been read behind it: each redirection stands among
the tokens, and no other operator but the equals sign does. -/
structure Command.MadeOf (c : Command) (verb : Token) (args : List Token) : Prop where
  tokens_eq : c.tokens = verb :: args
  redirects_eq : c.redirects = args.filterMap Token.redirect?
  operators : ∀ t ∈ args, t.kind = .operator →
    t.value = ['='] ∨ (Redirect.Kind.ofText? t.value).isSome

/-- What a parser in a command holds, together with the tokens that wait, is split into those
with one property and those with another. -/
inductive ParserPhase.Holds (A G : Token → Prop) (verb : Token) :
    ParserPhase σ → List Token → Prop
  | inCommand {c : OpenCommand σ} {args more : List Token} : c.command.MadeOf verb args →
    Token.Split A G (args ++ more) → Holds A G verb (.inCommand c) more
  | redirecting {c : OpenCommand σ} {pending : PendingRedirect} {args more : List Token} :
    c.command.MadeOf verb args → pending.token.kind = .operator →
      Redirect.Kind.ofText? pending.token.value = some pending.kind →
      Token.Split A G (args ++ pending.token :: more) →
      Holds A G verb (.awaitingRedirectTarget c pending) more

theorem OpenCommand.madeOf_push {c : OpenCommand σ} {args : List Token}
    (h : c.command.MadeOf verb args) {t : Token}
    (ht : t.kind = .operator → t.value = ['=']) : (c.push t).command.MadeOf verb (args ++ [t]) := by
  have hnone : t.redirect? = none := by
    unfold Token.redirect?
    split
    · next hk => rw [ht hk]; rfl
    · rfl
  refine ⟨?_,?_,?_⟩
  · show c.command.tokens ++ [t] = _
    rw [h.tokens_eq]
    rfl
  · show c.command.redirects = _
    rw [h.redirects_eq,List.filterMap_append,List.filterMap_cons,hnone]
    simp
  · intro s hs hk
    rcases List.mem_append.1 hs with hs | hs
    · exact h.operators s hs hk
    · cases List.mem_singleton.1 hs
      exact .inl (ht hk)

theorem OpenCommand.madeOf_redirect {c : OpenCommand σ} {pending : PendingRedirect}
    {args : List Token} (h : c.command.MadeOf verb args) (hk : pending.token.kind = .operator)
    (hkind : Redirect.Kind.ofText? pending.token.value = some pending.kind) :
    (c.redirect pending).command.MadeOf verb
      (args ++ [{ pending.token with redirectTarget := some (pending.target.getD []) }]) := by
  refine ⟨?_,?_,?_⟩
  · show c.command.tokens ++ [_] = _
    rw [h.tokens_eq]
    rfl
  · show c.command.redirects ++ [_] = _
    rw [h.redirects_eq,List.filterMap_append]
    simp [Token.redirect?,hk,hkind]
  · intro s hs hk
    rcases List.mem_append.1 hs with hs | hs
    · exact h.operators s hs hk
    · cases List.mem_singleton.1 hs
      exact .inr (by rw [hkind]; rfl)

/-- Properties of tokens that do not look at the target of a redirection. -/
structure Token.Aimless (A G : Token → Prop) : Prop where
  along : ∀ t target, A t → A { t with redirectTarget := target }
  own : ∀ t target, G t → G { t with redirectTarget := target }

namespace ParserPhase

variable {phase : ParserPhase σ} {token : Token} {more : List Token}

theorem Holds.settle (hAG : Token.Aimless A G) (h : Holds A G verb phase (token :: more)) :
    Holds A G verb (Parser.settle phase token) (token :: more) := by
  cases h with
  | inCommand hmade hsplit => exact .inCommand hmade hsplit
  | @redirecting c pending args _ hmade hk hkind hsplit =>
    unfold Parser.settle
    dsimp only
    split
    · refine .inCommand (OpenCommand.madeOf_redirect hmade hk hkind) ?_
      rw [List.append_assoc]
      exact hsplit.replace (hAG.along _ _) (hAG.own _ _)
    · exact .redirecting hmade hk hkind hsplit

/-- A token is taken into the command, or passed over, or it closes the command. -/
theorem Holds.step {p : Parser σ} (h : Holds A G verb p.phase (token :: more)) {s : Parser.Step σ}
    (hs : p.step token = .ok s) :
    (∃ phase, s = .goOn phase ∧ Holds A G verb phase more) ∨
      ∃ d operator args, s = .close d operator ∧ d.command.MadeOf verb args ∧
        token.kind = .operator ∧ Operator.ofText? token.value = some operator ∧
        Token.Split A G (args ++ [token]) := by
  unfold Parser.step at hs
  cases hphase : p.phase with
  | inCommand c =>
    rw [hphase] at h hs
    cases h with
    | @inCommand _ args _ hmade hsplit =>
    have hleft : Token.Split A G (args ++ more) := hsplit.sublist (by simp)
    cases Parser.stepInCommand_placed hs with
    | skipped => exact .inl ⟨_,rfl,.inCommand hmade hleft⟩
    | pushed _ _ ht =>
      exact .inl ⟨_,rfl,.inCommand (OpenCommand.madeOf_push hmade ht)
        (by rwa [List.append_assoc])⟩
    | redirects hk hkind => exact .inl ⟨_,rfl,.redirecting hmade hk hkind hsplit⟩
    | closes hk hop => exact .inr ⟨_,_,args,rfl,hmade,hk,hop,hsplit.sublist (by simp)⟩
  | awaitingRedirectTarget c pending =>
    rw [hphase] at h hs
    cases h with
    | @redirecting _ _ args _ hmade hk hkind hsplit =>
    obtain ⟨_,rfl⟩ := Parser.stepRedirectTarget_waits hs
    exact .inl ⟨_,rfl,.redirecting hmade hk hkind (hsplit.sublist (by simp))⟩
  | awaitingVerb | closed | done => rw [hphase] at h; cases h

theorem Holds.atEnd (hAG : Token.Aimless A G) (h : Holds A G verb phase [])
    {out : Option (OpenCommand σ)} (ha : Parser.atEnd phase = .ok out) :
    ∃ d args, out = some d ∧ d.command.MadeOf verb args ∧ Token.Split A G args := by
  cases h with
  | @inCommand c args _ hmade hsplit =>
    cases ha
    exact ⟨c,args,rfl,hmade,by rwa [List.append_nil] at hsplit⟩
  | @redirecting c pending args _ hmade hk hkind hsplit =>
    unfold Parser.atEnd at ha
    dsimp only at ha
    split at ha
    · cases ha
      exact ⟨_,_,rfl,OpenCommand.madeOf_redirect hmade hk hkind,
        hsplit.replace (hAG.along _ _) (hAG.own _ _)⟩
    · cases ha

/-- New tokens that have the second property may come behind those that wait. -/
theorem Holds.append (h : Holds A G verb phase []) (hmore : ∀ t ∈ more, G t) :
    Holds A G verb phase more := by
  cases h with
  | inCommand hmade hsplit =>
    rw [List.append_nil] at hsplit
    exact .inCommand hmade (hsplit.append hmore)
  | @redirecting c pending args _ hmade hk hkind hsplit =>
    refine .redirecting hmade hk hkind ?_
    have := hsplit.append hmore
    rwa [List.append_assoc] at this

/-- The next token waits already, or it is made by the grammar of the command. -/
theorem Holds.next {o : Options σ} {ctx : LexContext} {t t' : Tokenizer}
    (hG : ∀ s : Token, o.makes s.kind s.value = true → G s) (h : Holds A G verb phase t.stack)
    (hn : t.next o ctx = (.ok (some token),t')) : Holds A G verb phase (token :: t'.stack) := by
  rcases Tokenizer.next_cutBy hn with hstack | ⟨hstack,hmade,hcut,-⟩
  · rwa [hstack] at h
  · rw [hstack] at h
    exact h.append (List.forall_mem_cons.2 ⟨hG token hmade,fun s hs => hG s (hcut.made s hs)⟩)

end ParserPhase

def Token.operator? (t : Token) : Option Operator :=
  if t.kind = .operator then Operator.ofText? t.value else none

/-- A command, with the operator behind it, keeps to a grammar. -/
structure Command.Obeys (c : Command) (operator : Option Operator) (g : Grammar) : Prop where
  pipelining : g.allowPipelining = false → operator = none
  fileAccess : g.allowFileAccess = false → c.redirects = []
  quoting : g.allowQuoting = false → ∀ t ∈ c.tokens.tail, t.kind ≠ .string
  backticks : g.expandBackticks = false → ∀ t ∈ c.tokens.tail, t.kind ≠ .backtick
  environment : g.expandEnvironment = false → ∀ t ∈ c.tokens.tail, t.kind ≠ .variable

theorem Token.makes_operator {g : Grammar} {t : Token} {operator : Operator}
    (h : t.operator? = some operator) : g.makes t.kind t.value = g.allowPipelining := by
  unfold operator? at h
  split at h
  · next hk =>
    have hv : operator.text = t.value := by simpa using List.find?_some h
    rw [hk,← hv]
    cases operator <;> rfl
  · cases h

/-- A command keeps to a grammar exactly if the grammar makes all tokens behind its verb. -/
theorem Command.obeys_iff {g : Grammar} {c : Command} {operator : Option Operator}
    {args : List Token} {closing : Option Token} (h : c.MadeOf verb args)
    (hclosing : closing.map Token.operator? = operator.map some) :
    c.Obeys operator g ↔ ∀ t ∈ args ++ closing.toList, g.makes t.kind t.value = true := by
  have htail : c.tokens.tail = args := by rw [h.tokens_eq]; rfl
  constructor
  · intro ho t ht
    have htrue {b : Bool} (hb : b ≠ false) : b = true := eq_true_of_ne_false hb
    rcases List.mem_append.1 ht with ht | ht
    · have hmem : t ∈ c.tokens.tail := htail ▸ ht
      unfold Grammar.makes
      split
      · next hk => exact htrue fun hf => ho.quoting hf t hmem hk
      · next hk => exact htrue fun hf => ho.backticks hf t hmem hk
      · next hk => exact htrue fun hf => ho.environment hf t hmem hk
      · next hk =>
        split
        · rfl
        · next hne =>
          obtain ⟨kind,hkind⟩ := Option.isSome_iff_exists.1 ((h.operators t ht hk).resolve_left hne)
          rw [hkind]
          refine htrue fun hf => ?_
          have hnone := ho.fileAccess hf
          rw [h.redirects_eq,List.filterMap_eq_nil_iff] at hnone
          have := hnone t ht
          rw [Token.redirect?,if_pos hk,hkind] at this
          cases this
      · rfl
    · obtain rfl : closing = some t := Option.mem_toList.1 ht
      obtain ⟨op,rfl,hop⟩ := Option.map_eq_some_iff.1 hclosing.symm
      rw [Token.makes_operator hop.symm]
      exact htrue fun hf => by cases ho.pipelining hf
  · intro hg
    obtain ⟨hargs,hend⟩ := List.forall_mem_append.1 hg
    have hkind {kind : Token.Kind} {b : Bool} (hb : ∀ value, g.makes kind value = b)
        (hf : b = false) : ∀ t ∈ c.tokens.tail, t.kind ≠ kind := by
      rintro t ht rfl
      have := hargs t (htail ▸ ht)
      rw [hb,hf] at this
      cases this
    refine ⟨fun hf => ?_,fun hf => ?_,hkind fun _ => rfl,hkind fun _ => rfl,hkind fun _ => rfl⟩
    · cases closing with
      | none =>
        cases operator with
        | none => rfl
        | some op => cases hclosing
      | some t =>
        obtain ⟨op,rfl,hop⟩ := Option.map_eq_some_iff.1 hclosing.symm
        have := hend t (Option.mem_toList.2 rfl)
        rw [Token.makes_operator hop.symm,hf] at this
        cases this
    · rw [h.redirects_eq,List.filterMap_eq_nil_iff]
      intro t ht
      unfold Token.redirect?
      split
      · next hk =>
        have := hargs t ht
        rcases h.operators t ht hk with hv | hv
        · rw [hv]; rfl
        · obtain ⟨kind,hkind⟩ := Option.isSome_iff_exists.1 hv
          have hne : t.value ≠ ['='] := by
            rintro he
            rw [he] at hkind
            cases hkind
          simp [Grammar.makes,hk,hne,hkind,hf] at this
      · rfl

end Held

section Runs

variable {σ : Type} {o : Options σ} {settings : Settings}

/-- The grammars of a session: its own and those of its verbs. -/
def Grammar.Known (o : Options σ) (settings : Settings) (g : Grammar) : Prop :=
  g = o.toGrammar ∨ ∃ name, settings name = some g

/-- A token that a history reference has brought in along with a verb, and behind it: it was cut
before the verb was known. -/
structure Token.CameWith (o : Options σ) (settings : Settings) (verb t : Token) : Prop where
  verb_brought : verb.source = .history
  brought : t.source = .history
  behind : verb.stop ≤ t.start
  cut : ∃ g, Grammar.Known o settings g ∧ g.makes t.kind t.value = true

/-- The tokens in waiting are the rest of what one history reference has brought in. -/
def Tokenizer.Bound (o : Options σ) (settings : Settings) (t : Tokenizer) : Prop :=
  ∃ g, Grammar.Known o settings g ∧ Token.CutBy g t.stack

theorem Tokenizer.Bound.next {g : Grammar} {ctx : LexContext} {t t' : Tokenizer}
    (h : t.Bound o settings) (hg : g.Known o settings) {token : Token}
    (hn : t.next (o.forCommand g) ctx = (.ok (some token),t')) : t'.Bound o settings := by
  rcases next_cutBy hn with hstack | ⟨-,-,hcut,-⟩
  · obtain ⟨g',hg',hcut⟩ := h
    rw [hstack] at hcut
    exact ⟨g',hg',hcut.tail⟩
  · exact ⟨g,hg,hcut⟩

/-- A command that is governed by a grammar, but for what came with its verb. The token that
closes it counts among those behind the verb. -/
def Command.LedBy (o : Options σ) (settings : Settings) (g : Grammar) (verb : Token)
    (c : Command) (operator : Option Operator) : Prop :=
  ∃ args closing, c.MadeOf verb args ∧
    Option.map Token.operator? closing = operator.map some ∧
    Token.Split (Token.CameWith o settings verb) (fun t => g.makes t.kind t.value = true)
      (args ++ closing.toList)

def Command.Governed (o : Options σ) (settings : Settings) (c : Command)
    (operator : Option Operator) : Prop :=
  c.kind = .shell → ∃ verb g, settings (OpenCommand.lookupName o verb) = some g ∧
    c.LedBy o settings g verb operator

theorem Command.governed_compiled (o : Options σ) (settings : Settings) (k : Command)
    (verb : Text) (args : List Text) (globArgs : List Nat) (operator : Option Operator) :
    Governed o settings { k with verb, args, globArgs } operator ↔
      Governed o settings k operator := by
  refine forall_congr' fun _ => exists_congr fun v => exists_congr fun g => and_congr_right fun _ =>
    exists_congr fun as => exists_congr fun closing => and_congr_left fun _ => ?_
  exact ⟨fun h => ⟨h.tokens_eq,h.redirects_eq,h.operators⟩,
    fun h => ⟨h.tokens_eq,h.redirects_eq,h.operators⟩⟩

namespace Parser

variable {p p' : Parser σ} {tokens : List Token} {out : Option (OpenCommand σ × Option Operator)}

/-- Inside a command the tokens go where they belong, up to the one that closes it. -/
theorem Reads.led {c : OpenCommand σ} {g : Grammar} {verb : Token} (h : Reads p tokens out p')
    (hp : p.phase.Within c) (hg : g.Known o settings) (ho : c.options = o.forCommand g)
    (hbound : p.tokenizer.Bound o settings)
    (hold : p.phase.Holds (Token.CameWith o settings verb)
      (fun t => g.makes t.kind t.value = true) verb p.tokenizer.stack) :
    p'.tokenizer.Bound o settings ∧
      ∃ d operator, out = some (d,operator) ∧ d.command.LedBy o settings g verb operator := by
  have haimless : Token.Aimless (Token.CameWith o settings verb)
      (fun t => g.makes t.kind t.value = true) :=
    ⟨fun _ _ h => ⟨h.verb_brought,h.brought,h.behind,h.cut⟩,fun _ _ h => h⟩
  have hgrammar {p : Parser σ} {c : OpenCommand σ} (hp : p.phase.Within c)
      (ho : c.options = o.forCommand g) : p.grammar = o.forCommand g :=
    (reader_within hp).1.trans ho
  induction h generalizing c with
  | @ends p t d hn ha =>
    obtain ⟨rfl,hstack,-⟩ := Tokenizer.next_ended hn
    rw [hstack] at hold
    obtain ⟨d,args,rfl,hmade,hsplit⟩ := hold.atEnd haimless ha
    exact ⟨hbound,d,none,rfl,args,none,hmade,rfl,by simpa using hsplit⟩
  | @closes p t token d operator hn hs =>
    rw [hgrammar hp ho] at hn
    rcases ((hold.next (fun _ h => h) hn).settle haimless).step hs with
      ⟨_,hgo,-⟩ | ⟨_,_,args,hclose,hmade,hk,hop,hsplit⟩
    · cases hgo
    · cases hclose
      refine ⟨hbound.next hg hn,d,some operator,rfl,args,some token,hmade,?_,hsplit⟩
      simp [Token.operator?,hk,hop]
  | @goesOn p p' t token phase tokens out hn hs _ ih =>
    rw [hgrammar hp ho] at hn
    rcases ((hold.next (fun _ h => h) hn).settle haimless).step hs with
      ⟨_,hgo,hhold⟩ | ⟨_,_,_,hclose,-⟩
    · cases hgo
      rcases step_within hp hs with ⟨_,d,hgo,hwithin,hgrows⟩ | ⟨_,_,hclose,-⟩
      · cases hgo
        exact ih hwithin (hgrows.options_eq.trans ho) (hbound.next hg hn) hhold
      · cases hclose
    · cases hclose

/-- A verb opens a command by one of the grammars of the session, for a verb with settings by
theirs. -/
theorem opened_by (o : Options σ) (settings : Settings) (token : Token) :
    ∃ g verb, (OpenCommand.ofVerb o settings token).options = o.forCommand g ∧
      g.Known o settings ∧ (OpenCommand.ofVerb o settings token).command.MadeOf verb [] ∧
      verb.source = token.source ∧ verb.stop = token.stop ∧
      ((OpenCommand.ofVerb o settings token).command.kind = .shell →
        settings (OpenCommand.lookupName o verb) = some g) := by
  have hmade (verb : Token) (kind : Command.Kind) : (Command.opened verb kind).MadeOf verb [] :=
    ⟨rfl,rfl,List.forall_mem_nil _⟩
  have hsource : (OpenCommand.promote o token).source = token.source := by
    unfold OpenCommand.promote
    split <;> rfl
  have hstop : (OpenCommand.promote o token).stop = token.stop := by
    unfold OpenCommand.promote
    split <;> rfl
  rw [OpenCommand.ofVerb_eq]
  split
  · exact ⟨o.toGrammar,token,rfl,.inl rfl,hmade _ _,rfl,rfl,fun hk => by cases hk⟩
  · cases hset : settings (OpenCommand.lookupName o (OpenCommand.promote o token)) with
    | none =>
      exact ⟨o.toGrammar,_,rfl,.inl rfl,hmade _ _,hsource,hstop,fun hk => by cases hk⟩
    | some g => exact ⟨g,_,rfl,.inr ⟨_,hset⟩,hmade _ _,hsource,hstop,fun _ => hset⟩

theorem Reads.governed (h : Reads p tokens out p') (hp : p.phase.Between)
    (ho : p.options = o) (hsettings : p.settings = settings)
    (hbound : p.tokenizer.Bound o settings) :
    p'.tokenizer.Bound o settings ∧
      ∀ c operator, out = some (c,operator) → c.command.Governed o settings operator := by
  have hgrammar {p : Parser σ} (hp : p.phase.Between) (ho : p.options = o) :
      p.grammar = o.forCommand o.toGrammar :=
    (reader_between hp).1.trans ho
  induction h with
  | @ends p t d hn ha =>
    obtain ⟨rfl,-⟩ := Tokenizer.next_ended hn
    refine ⟨hbound,?_⟩
    cases hphase : p.phase with
    | awaitingVerb | closed | done =>
      rw [hphase] at ha
      cases ha
      exact fun _ _ he => by cases he
    | inCommand | awaitingRedirectTarget => rw [hphase] at hp; cases hp
  | closes _ hs => rcases step_between hp hs with ⟨hgo,-⟩ | ⟨hgo,-⟩ <;> cases hgo
  | @goesOn p p' t token phase tokens out hn hs hrest ih =>
    rw [hgrammar hp ho] at hn
    have hsession : Grammar.Known o settings o.toGrammar := .inl rfl
    have hnext := hbound.next hsession hn
    rcases step_between hp hs with ⟨hgo,-⟩ | ⟨hgo,hverb⟩
    · cases hgo
      exact ih .awaitingVerb ho hsettings hnext
    · cases hgo
      subst ho hsettings
      obtain ⟨g,verb,hoptions,hg,hmade,hsource,hstop,hshell⟩ :=
        opened_by p.options p.settings token
      have halong : ∀ s ∈ t.stack, Token.CameWith p.options p.settings verb s := by
        intro s hs
        rcases Tokenizer.next_cutBy hn with hstack | ⟨-,-,-,hkind | hnil⟩
        · obtain ⟨g',hg',hcut⟩ := hbound
          rw [hstack] at hcut
          have hmem := List.mem_cons_of_mem token hs
          exact ⟨hsource.trans (hcut.brought _ (.head _)),hcut.brought _ hmem,
            hstop ▸ (List.pairwise_cons.1 hcut.ordered).1 s hs,g',hg',hcut.made _ hmem⟩
        · rw [Token.isVerb,hkind] at hverb
          cases hverb
        · rw [hnil] at hs
          cases hs
      obtain ⟨hbound',d,operator,rfl,hled⟩ := hrest.led (.inCommand _) hg hoptions hnext
        (.inCommand hmade (.of_forall halong))
      refine ⟨hbound',?_⟩
      rintro c operator ⟨⟩ hk
      refine ⟨verb,g,hshell ?_,hled⟩
      obtain ⟨_,_,hout,hgrows⟩ := hrest.grows (.inCommand _)
      cases hout
      exact hgrows.kind_eq.symm.trans hk

theorem ReadsLine.governed {t : Tokenizer} {cs : List (OpenCommand σ × Option Operator)}
    (h : ReadsLine p tokens cs t) (hp : p.phase.current? = none) (ho : p.options = o)
    (hsettings : p.settings = settings) (hbound : p.tokenizer.Bound o settings) :
    ∀ c ∈ cs, c.1.command.Governed o settings c.2 := by
  induction h with
  | empty => exact fun c hc => by cases hc
  | last h =>
    obtain ⟨-,hled⟩ := h.governed (restart_between hp).1 ho hsettings hbound
    intro c hc
    cases List.mem_singleton.1 hc
    exact hled _ _ rfl
  | closed h _ ih =>
    obtain ⟨hbound',hled⟩ := h.governed (restart_between hp).1 ho hsettings hbound
    obtain ⟨hoptions,hset,hphase⟩ := h.session
    intro c hc
    rcases List.mem_cons.1 hc with rfl | hc
    · exact hled _ _ rfl
    · exact ih hphase (hoptions.trans ho) (hset.trans hsettings) hbound' c hc

end Parser

end Runs

/-- The settings of a verb govern what is read behind it. The tokens behind the verb of a shell
command, with the one that closes it, are of two sorts, one after the other: those that a
history reference has brought in along with the verb, and those that the settings of the verb
have made. So the command keeps to its settings exactly if the first do; there are none where the
verb was typed. A command without an operator is the last of the line. -/
theorem parseLine_governs {σ : Type} {line : Text} {o : Options σ} {settings : Settings}
    {sub : Option History.Substitution} {parsed : ParsedLine} {tree : CommandTree} {w w' : σ}
    (h : parseLine line o settings sub w = (.ok parsed,w')) (htree : parsed.tree = some tree) :
    ∀ part ∈ tree.parts, part.command.kind = .shell →
      ∃ verb args closing g along own,
        part.command.MadeOf verb args ∧
        Option.map Token.operator? closing = part.operator.map some ∧
        settings (OpenCommand.lookupName o verb) = some g ∧
        args ++ closing.toList = along ++ own ∧
        (∀ t ∈ along, Token.CameWith o settings verb t) ∧
        (∀ t ∈ own, g.makes t.kind t.value = true) ∧
        (part.command.Obeys part.operator g ↔ ∀ t ∈ along, g.makes t.kind t.value = true) ∧
        (verb.source = .input → part.command.Obeys part.operator g) ∧
        (part.operator = none → tree.unlink.getLast? = some (part.command,none)) := by
  obtain ⟨links,t,hcommands,hlink,-⟩ := parseLine_ok h
  rw [htree] at hlink
  replace hlink := CommandTree.link_of_linkLine hlink
  obtain ⟨tokens,cs,hline⟩ := Parser.readsLine_of_commands hcommands
  have hlinks : (Parser.compileAll cs w).1 = links := by
    rw [hline.commands_eq] at hcommands
    exact Except.ok.inj (congrArg (fun r => r.1.1) hcommands)
  let P (c : Command) (operator : Option Operator) : Prop :=
    c.Governed o settings operator ∧
    (operator = none → tree.unlink.getLast? = some (c,none))
  have hled : ∀ l ∈ links, P l.1 l.2 := by
    have hbound : (Parser.new line o settings sub).tokenizer.Bound o settings :=
      ⟨o.toGrammar,.inl rfl,.nil _⟩
    have hcs := (Parser.compileAll_keeps (Command.governed_compiled o settings) cs w).2
      (hline.governed rfl rfl rfl hbound)
    rw [hlinks] at hcs
    rintro ⟨c,operator⟩ hl
    refine ⟨hcs _ hl,?_⟩
    rintro rfl
    exact CommandTree.last_of_link hlink hl
  intro part hpart hk
  obtain ⟨hshell,hlast⟩ : P part.command part.operator :=
    CommandTree.has_of_link hlink hled part hpart
  obtain ⟨verb,g,hset,args,closing,hmade,hclosing,along,own,hsplit,halong,hown⟩ := hshell hk
  have hobeys : part.command.Obeys part.operator g ↔
      ∀ t ∈ along, g.makes t.kind t.value = true := by
    rw [Command.obeys_iff hmade hclosing,hsplit,List.forall_mem_append]
    exact ⟨fun h => h.1,fun h => ⟨h,hown⟩⟩
  refine ⟨verb,args,closing,g,along,own,hmade,hclosing,hset,hsplit,halong,hown,hobeys,?_,hlast⟩
  -- A verb that was typed has brought nothing in with it.
  intro hinput
  refine hobeys.2 fun t ht => ?_
  cases (halong t ht).verb_brought.symm.trans hinput

section Lines

open Shell (scan_letter)

/-- Settings by which one verb is read as plain text. -/
def plainVerb : Settings :=
  fun name => if name = ['a'] then some .restricted else none

/-- A session that remembers one line, or none. -/
def remembering (history : List Text) : Options Unit :=
  { history }

def openedPlain (history : List Text) (verb : Token) : OpenCommand Unit :=
  ⟨.opened verb .shell,(remembering history).forCommand .restricted⟩

/-- The verb that was typed makes a word of the mark behind it. -/
theorem parseLine_governs_typed : ∃ parsed tree,
    parseLine ['a','|','b'] (remembering []) plainVerb none () = (.ok parsed,()) ∧
      parsed.tree = some tree ∧ ∀ part ∈ tree.parts, part.command.kind = .shell ∧
        ∃ verb g, part.command.tokens.head? = some verb ∧ part.command.Obeys part.operator g := by
  have hcalm {t : Tokenizer} (h : t.stack = []) : Tokenizer.Calm (remembering []).history t :=
    ⟨h,.inl rfl⟩
  let p := Parser.new ['a','|','b'] (remembering []) plainVerb none
  let verb : Token := ⟨.word,['a'],.input,0,1,none⟩
  let mark : Token := ⟨.word,['|'],.input,1,2,none⟩
  let last : Token := ⟨.word,['b'],.input,2,3,none⟩
  let c := openedPlain [] verb
  let t₁ : Tokenizer := ⟨['a'],['|','b'],[],some .word,none,false,false,['a']⟩
  let t₂ : Tokenizer := ⟨['a','|'],['b'],[],some .word,none,false,false,['a','|']⟩
  let t₃ : Tokenizer := ⟨['a','|','b'],[],[],some .word,none,false,false,['a','|','b']⟩
  have hn₁ : p.restart.tokenizer.next p.restart.grammar p.restart.context = (.ok (some verb),t₁) :=
    (hcalm rfl).next_lexeme rfl (scan_letter (.head _) (by rintro d ⟨⟩; rfl))
  have hscan : Lexeme.scan c.options c.context (some .word) 1 '|' ['b'] =
      .ok (Lexeme.single .word '|') := rfl
  have hn₂ : t₁.next c.options c.context = (.ok (some mark),t₂) :=
    (hcalm (t := t₁) rfl).next_lexeme (o := c.options) rfl hscan
  have hn₃ : t₂.next c.options c.context = (.ok (some last),t₃) :=
    (hcalm (t := t₂) rfl).next_lexeme (o := c.options) rfl
      (scan_letter (.tail _ (.head _)) nofun)
  have hread : p.restart.read = (.ok (some ((c.push mark).push last,none)),
      { p with tokenizer := t₃, phase := .done }) :=
    (Parser.read_goesOn hn₁ rfl).trans <|
      (Parser.read_goesOn (p := { p with tokenizer := t₁, phase := .inCommand c }) hn₂ rfl).trans <|
      (Parser.read_goesOn (p := { p with tokenizer := t₂, phase := .inCommand (c.push mark) })
        hn₃ rfl).trans <|
      Parser.read_ends (p := { p with tokenizer := t₃, phase := .inCommand _ }) (c := some _)
        (Tokenizer.next_none rfl rfl) rfl
  obtain ⟨v,as,glob,hk⟩ := Command.compile_keeps c.options ((c.push mark).push last).command ()
  let k : Command :=
    { ((c.push mark).push last).command with verb := v, args := as, globArgs := glob }
  have hcommands : p.commands () = ((.ok [(k,none)],t₃),()) := by
    rw [Parser.commands_last hread]
    exact congrArg (fun k => ((Except.ok [(k,none)],t₃),())) hk
  have hparse : parseLine ['a','|','b'] (remembering []) plainVerb none () =
      (.ok ⟨some (.node k none none [] none none),['a','|','b'],false,none⟩,()) :=
    parseLine_commands hcommands rfl
  refine ⟨_,_,hparse,rfl,fun part hpart => ?_⟩
  have hnode : part = .node k none none [] none none := by
    simpa [CommandTree.parts,CommandTree.partsAll,CommandTree.partsOpt] using hpart
  have hkind : part.command.kind = .shell := by rw [hnode]; rfl
  obtain ⟨first,args,-,g,-,-,hmade,-,-,-,-,-,-,htyped,-⟩ :=
    parseLine_governs hparse rfl part hpart hkind
  have htokens : first :: args = [verb,mark,last] := by rw [← hmade.tokens_eq,hnode]; rfl
  obtain ⟨rfl,-⟩ := List.cons.inj htokens
  exact ⟨hkind,verb,g,by rw [hmade.tokens_eq]; rfl,htyped rfl⟩

/-- The settings of a verb that a history reference brings in do not govern what comes with
it. -/
theorem not_parseLine_governs :
    ¬ ∀ (line : Text) (o : Options Unit) (settings : Settings) (parsed : ParsedLine)
      (tree : CommandTree), parseLine line o settings none () = (.ok parsed,()) →
      parsed.tree = some tree → ∀ part ∈ tree.parts, part.command.kind = .shell →
      ∀ verb g, part.command.tokens.head? = some verb →
        settings (OpenCommand.lookupName o verb) = some g → part.command.Obeys part.operator g := by
  intro hall
  let o := remembering [['a','|','b']]
  let o' : Options Unit := { o with historyLevel := .off }
  have hscan₁ : Lexeme.scan o' (.inText false) none 0 'a' ['|','b'] =
    .ok (Lexeme.run .word 'a' []) := scan_letter (.head _) (by rintro d ⟨⟩; rfl)
  have hscan₂ (start : Nat) : Lexeme.scan o' (.inText true) (some .word) start '|' ['b'] =
    .ok (Lexeme.operator ['|']) := rfl
  have hscan₃ (start : Nat) : Lexeme.scan o' (.inText true) (some .operator) start 'b' [] =
    .ok (Lexeme.run .word 'b' []) := scan_letter (.tail _ (.head _)) nofun
  obtain ⟨stop₁,hfirst⟩ := Tokenizer.historyTokens_cons hscan₁
  obtain ⟨stop₂,hsecond⟩ := Tokenizer.historyTokens_cons (hscan₂ stop₁)
  obtain ⟨stop₃,hthird⟩ := Tokenizer.historyTokens_cons (hscan₃ stop₂)
  let verb : Token := ⟨.word,['a'],.history,0,stop₁,none⟩
  let mark : Token := ⟨.operator,['|'],.history,stop₁,stop₂,none⟩
  let last : Token := ⟨.word,['b'],.history,stop₂,stop₃,none⟩
  have hlast : Tokenizer.historyTokens o' (.inText true) (some .operator) stop₂ ['b'] =
      .ok [last] := by
    refine hthird.trans ?_
    show Except.map _ (Tokenizer.historyTokens o' _ _ _ []) = _
    rw [Tokenizer.historyTokens]
    rfl
  have hmore : Tokenizer.historyTokens o' (.inText true) (some .word) stop₁ ['|','b'] =
    .ok [mark,last] := hsecond.trans (congrArg (Except.map _) hlast)
  have htokens : Tokenizer.historyTokens o' (.inText false) none 0 ['a','|','b'] =
    .ok [verb,mark,last] := hfirst.trans (congrArg (Except.map _) hmore)
  obtain ⟨⟨t,_,_,phase⟩,rfl,rfl,hphase,hstack,hrest,-,-,-,hcommands⟩ :=
    parseLine_previous (o := o) rfl rfl rfl htokens plainVerb none
  let q : Parser Unit := ⟨t,o,plainVerb,phase⟩
  let c := openedPlain [['a','|','b']] verb
  let d : OpenCommand Unit := ⟨.opened last .game,o⟩
  let t₁ : Tokenizer := { t with stack := [mark,last], previous := some .word }
  let t₂ : Tokenizer := { t₁ with stack := [last], previous := some .operator }
  let t₃ : Tokenizer := { t₂ with stack := [], previous := some .word }
  have hrestart : q.restart = { q with phase := .awaitingVerb none } := by
    unfold Parser.restart
    rw [show q.phase.current? = none from hphase]
  let q₁ : Parser Unit := { q with tokenizer := t₁, phase := .inCommand c }
  let q₂ : Parser Unit := { q with tokenizer := t₂, phase := .closed }
  let q₃ : Parser Unit := { q with tokenizer := t₃, phase := .inCommand d }
  have hn₁ : q.restart.tokenizer.next q.restart.grammar q.restart.context =
    (.ok (some verb),t₁) := Tokenizer.next_stack hstack
  have hs₁ : Parser.step { q.restart with
      tokenizer := t₁
      phase := Parser.settle q.restart.phase verb } verb = .ok (.goOn (.inCommand c)) := by
    rw [hrestart]
    rfl
  have hn₂ : q₁.tokenizer.next q₁.grammar q₁.context = (.ok (some mark),t₂) :=
    Tokenizer.next_stack rfl
  have hn₃ : q₂.restart.tokenizer.next q₂.restart.grammar q₂.restart.context =
    (.ok (some last),t₃) := Tokenizer.next_stack rfl
  have hread : q.restart.read = (.ok (some (c,some .pipe)),q₂) :=
    (Parser.read_goesOn hn₁ hs₁).trans (Parser.read_closes (p := q₁) hn₂ rfl)
  have hread' : q₂.restart.read =
      (.ok (some (d,none)),{ q with tokenizer := t₃, phase := .done }) :=
    (Parser.read_goesOn hn₃ rfl).trans
      (Parser.read_ends (p := q₃) (c := some d) (Tokenizer.next_none rfl hrest) rfl)
  obtain ⟨v,as,glob,hk⟩ := Command.compile_keeps c.options c.command ()
  let k : Command := { c.command with verb := v, args := as, globArgs := glob }
  let k' : Command := (d.command.compile d.options ()).1
  have hlinks : (Parser.new ['!','!'] o plainVerb none).commands () =
      ((.ok [(k,some .pipe),(k',none)],t₃),()) := by
    rw [hcommands,Parser.commands_closed hread,Parser.commands_last hread']
    exact congrArg (fun k => ((Except.ok [(k,some Operator.pipe),(k',none)],t₃),())) hk
  let tree : CommandTree := .node k (some .pipe) (some .output) [] none
    (some (.node k' none none [] none none))
  have hlink : linkLine [(k,some .pipe),(k',none)] = .ok (some tree) := rfl
  have hobeys := hall _ _ _ _ tree (parseLine_commands hlinks hlink) rfl tree (.head _) rfl verb
    .restricted rfl rfl
  cases hobeys.pipelining rfl

end Lines

end Realm
