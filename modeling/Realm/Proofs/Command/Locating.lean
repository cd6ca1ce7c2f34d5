import Mathlib.Data.List.DropRight
import Realm.Proofs.Command.Blame
import Realm.Proofs.Command.Splicing

/-! Where a line is said to be wrong. A token that may not stand where it does is told by the line
and the column at which it begins, in the line or in what a quick substitution has made of it. A
token that has been brought in from the history has no place there, and is told without one. -/
namespace Realm

namespace Position

variable {before after : Text}

/-- The place right behind a text: line breaks count lines, what follows the last of them counts
columns. -/
def behind (before : Text) : Position where
  line := 1 + before.count '\n'
  column := 1 + (before.rtakeWhile (· ≠ '\n')).length
  offset := Text.byteSize before

@[simp] theorem offset_advance (p : Position) (c : Char) :
    (p.advance c).offset = p.offset + c.utf8Size := by
  unfold advance
  split <;> rfl

/-- The place at a boundary is found by going through all that is before it. -/
@[simp] theorem seek_append (before after : Text) (p : Position) :
    seek (p.offset + Text.byteSize before) p (before ++ after) = before.foldl advance p := by
  induction before generalizing p with
  | nil =>
    cases after with
    | nil => rfl
    | cons c after => exact if_pos (Nat.le_refl _)
  | cons c before ih =>
    have hsize := c.utf8Size_pos
    have hlt : ¬ p.offset + Text.byteSize (c :: before) ≤ p.offset := by
      rw [Text.byteSize_cons]
      omega
    rw [List.cons_append,seek,if_neg hlt,List.foldl_cons,← ih,offset_advance,Text.byteSize_cons,
      Nat.add_assoc]

@[simp] theorem foldl_advance (before : Text) : before.foldl advance start = behind before := by
  induction before using List.reverseRecOn with
  | nil => rfl
  | append_singleton before c ih =>
    rw [List.foldl_append,ih,List.foldl_cons,List.foldl_nil]
    by_cases hc : c = '\n'
    · simp [hc,advance,behind,Nat.add_assoc]
    · simp [hc,advance,behind,Nat.add_assoc]

@[simp] theorem ofOffset_append (before after : Text) :
    ofOffset (before ++ after) (Text.byteSize before) = behind before := by
  have hseek := seek_append before after start
  rw [foldl_advance] at hseek
  rw [ofOffset,← hseek]
  simp [start]

end Position

namespace Lexeme

variable {σ : Type} {o : Options σ} {ctx : LexContext} {previous : Option Token.Kind} {start : Nat}
  {c : Char} {t : Text} {lexeme : Lexeme}

structure Begins (previous : Option Token.Kind) (c : Char) (t : Text) (lexeme : Lexeme) : Prop where
  operator : lexeme.kind = .operator → lexeme.value <+: c :: t
  backtick : lexeme.kind = .backtick →
    c = '\x60' ∧ ∃ width, quotedBody? '\x60' t = some (lexeme.value,width)
  member : lexeme.kind = .member → previous = some .variable ∨ previous = some .member

theorem begins_of_kind (h : lexeme.kind ∉ [.operator,.backtick,.member]) :
    lexeme.Begins previous c t := by
  simp only [List.mem_cons,List.not_mem_nil,or_false,not_or] at h
  exact ⟨fun hk => absurd hk h.1,fun hk => absurd hk h.2.1,fun hk => absurd hk h.2.2⟩

theorem begins_operator {text : Text} {hpos : 0 < text.length} (h : text <+: c :: t) :
    (Lexeme.operator text hpos).Begins previous c t :=
  ⟨fun _ => h,nofun,nofun⟩

theorem begins_member {name : Text} {length : Nat} {hpos : 0 < length}
    (h : previous = some .variable ∨ previous = some .member) :
    (Lexeme.mk .member name length hpos).Begins previous c t :=
  ⟨nofun,nofun,fun _ => h⟩

theorem special_begins {g : Grammar} (h : special g ctx start c t = .ok lexeme) :
    lexeme.Begins previous c t := by
  have hsingle {c' : Char}
      (h : Except.ok (single .word c') = (Except.ok lexeme : Except Error Lexeme)) :
      lexeme.Begins previous c t := by
    cases h
    exact begins_of_kind (by simp [single])
  unfold special at h
  split at h
  · split at h
    · cases hdollar : dollar? t with
      | none => rw [hdollar] at h; exact hsingle h
      | some l =>
        rw [hdollar] at h
        cases h
        exact begins_of_kind (by rw [Option.getD_some,dollar?_kind hdollar]; decide)
    · exact hsingle h
  · split at h
    · cases h; exact begins_operator (by simp)
    · exact hsingle h
  · split at h
    · split at h <;> cases h <;> exact begins_operator (by simp)
    · exact hsingle h
  · split at h
    · split at h <;> cases h <;> exact begins_operator (by simp)
    · exact hsingle h
  · split at h
    · split at h <;> cases h <;> exact begins_operator (by simp)
    · exact hsingle h
  · split at h
    · cases h; exact begins_operator (by simp)
    · exact hsingle h
  · split at h
    · exact begins_of_kind (by rw [quoted_kind h]; decide)
    · exact hsingle h
  · split at h
    · exact begins_of_kind (by rw [quoted_kind h]; decide)
    · exact hsingle h
  · split at h
    · refine ⟨fun hk => ?_,fun _ => ⟨rfl,?_⟩,fun hk => ?_⟩
      · rw [quoted_kind h] at hk; cases hk
      · unfold quoted at h
        split at h
        · next hbody => cases h; exact ⟨_,hbody⟩
        · cases h
      · rw [quoted_kind h] at hk; cases hk
    · exact hsingle h
  · split at h
    · exact begins_of_kind (by rw [escape_kind h]; decide)
    · exact hsingle h
  · split at h
    · cases h; exact begins_operator (by simp)
    · exact hsingle h
  · exact hsingle h

theorem member?_begins (h : member? o.toGrammar previous c t = some lexeme) :
    lexeme.Begins previous c t := by
  rw [member?,Option.ite_none_right_eq_some] at h
  obtain ⟨⟨-,-,hprevious⟩,hname⟩ := h
  obtain ⟨name,-,rfl⟩ := Option.map_eq_some_iff.1 hname
  exact begins_member hprevious

theorem scan_begins (h : scan o ctx previous start c t = .ok lexeme) :
    lexeme.Begins previous c t := by
  rw [scan] at h
  by_cases halias : (!ctx.inCommand && (o.charAlias? c).isSome) = true
  · rw [if_pos halias] at h
    cases h
    exact begins_of_kind (by simp [single])
  rw [if_neg halias] at h
  cases hmember : member? o.toGrammar previous c t with
  | some member =>
    rw [hmember] at h
    cases h
    exact member?_begins hmember
  | none =>
    rw [hmember] at h
    dsimp only at h
    by_cases hblank : Text.isBlank c = true
    · rw [if_pos hblank] at h
      cases h
      exact begins_of_kind (by simp [run])
    rw [if_neg hblank] at h
    cases hnumber : number? c t with
    | some number =>
      rw [hnumber] at h
      cases h
      obtain ⟨-,piece,-,-,rfl⟩ := number?_run hnumber
      exact begins_of_kind (by simp [run])
    | none =>
      rw [hnumber] at h
      dsimp only at h
      by_cases hplain : isPlain c = true
      · rw [if_pos hplain] at h
        cases h
        exact begins_of_kind (by simp [run])
      · rw [if_neg hplain] at h
        exact special_begins h

end Lexeme

namespace Options

variable {σ : Type}

def TakesQuick (o : Options σ) (line : Text) : Prop :=
  line.head? = some '^' ∧ o.historyLevel = .full ∧ o.history ≠ []

instance (o : Options σ) (line : Text) : Decidable (o.TakesQuick line) :=
  inferInstanceAs (Decidable (_ ∧ _ ∧ _))

/-- The text as which a line is read: itself, or what a quick substitution makes of it. -/
def lineRead (o : Options σ) (line : Text) : Text :=
  if o.TakesQuick line then
    match History.quickSubstitute line o.history with
    | .ok (text,_) => text
    | .error _ => line
  else line

end Options

namespace Tokenizer

variable {σ : Type} {o o' : Options σ} {ctx : LexContext} {t t' : Tokenizer} {token : Token}
  {line : Text}

def Brought (t : Tokenizer) : Prop :=
  ∀ s ∈ t.stack, s.source = .history

structure Shows (t : Tokenizer) (token : Token) : Prop where
  source_eq : token.source = .input
  start_eq : token.start = t.index
  operator : token.kind = .operator → token.value <+: t.rest
  backtick : token.kind = .backtick → ∃ rest width, t.rest = '\x60' :: rest ∧
    Lexeme.quotedBody? '\x60' rest = some (token.value,width)
  member : token.kind = .member → t.previous = some .variable ∨ t.previous = some .member

/-- A token has been brought in, or it is read where the reader is, or the line begins afresh. -/
theorem Brought.next (h : t.Brought) (hn : t.next o ctx = (.ok (some token),t')) : t'.Brought ∧
    (token.source = .history ∨ t.Shows token ∨ token.kind = .substitution) := by
  rcases next_cases hn with ⟨hstack,-⟩ | ⟨c,rest,u,hs,hr,hd,ht'⟩
  · rw [Brought,hstack] at h
    obtain ⟨htoken,hmore⟩ := List.forall_mem_cons.1 h
    exact ⟨hmore,.inl htoken⟩
  · have hnone : ∀ s ∈ t.stack, s.source = .history := h
    subst ht'
    cases hd with
    | replaced => exact ⟨hnone,.inr (.inr rfl)⟩
    | marked => exact ⟨hnone,.inr (.inl ⟨rfl,rfl,nofun,nofun,nofun⟩)⟩
    | referred _ _ htokens =>
      exact ⟨fun s hs => ((historyTokens_makeUp htokens).2 s hs).1,
        .inr (.inl ⟨rfl,rfl,nofun,nofun,nofun⟩)⟩
    | scanned hscan =>
      have hbegins := Lexeme.scan_begins hscan
      refine ⟨hnone,.inr (.inl ⟨rfl,rfl,fun hk => hr ▸ hbegins.operator hk,fun hk => ?_,
        hbegins.member⟩)⟩
      obtain ⟨rfl,width,hbody⟩ := hbegins.backtick hk
      exact ⟨rest,width,hr,hbody⟩

/-- A reader of the text as which a line is read. It will not begin afresh. -/
structure Settled (o : Options σ) (line : Text) (t : Tokenizer) : Prop where
  source_eq : t.source = o.lineRead line
  stays : t.restarted = true ∨ t.before ≠ [] ∨ ¬ o.TakesQuick line

theorem Settled.next (h : t.Settled o line) (ho : ctx.inCommand = false → o' = o)
    (hn : t.next o' ctx = (.ok (some token),t')) : t'.Settled o line := by
  rcases next_cases hn with ⟨-,ht'⟩ | ⟨c,rest,u,hs,hr,hd,ht'⟩
  · rw [ht']
    exact ⟨h.source_eq,h.stays⟩
  · subst ht'
    rcases hd.passes_or_restarts hr with ⟨piece,hpasses⟩ | hrestarts
    · refine ⟨hpasses.offsets.1.trans h.source_eq,.inr (.inl fun hnil => ?_)⟩
      have hnil : u.before = [] := hnil
      rw [hpasses.before_eq] at hnil
      exact hpasses.piece_ne (List.append_eq_nil_iff.1 hnil).2
    · cases hd with
      | replaced hwhen =>
        obtain ⟨rfl,hbefore,hctx,hfirst,hlevel,hhistory⟩ := hwhen
        rw [ho hctx] at hlevel hhistory
        -- A line that is no quick substitution is read as it is, and it would begin with a caret.
        have hquick : ¬ o.TakesQuick line := by simpa [hfirst,hbefore] using h.stays
        have hline : t.source = line := by rw [h.source_eq,Options.lineRead,if_neg hquick]
        refine absurd ⟨?_,hlevel,hhistory⟩ hquick
        rw [← hline,source,hbefore,hr]
        rfl
      | marked => cases hrestarts.kind_eq
      | referred => cases hrestarts.kind_eq
      | scanned hscan => exact absurd hrestarts.kind_eq (Lexeme.kind_of_scan hscan).2

/-- A reader at the beginning of a line that is taken as a quick substitution. -/
structure Fresh (o : Options σ) (line : Text) (t : Tokenizer) : Prop where
  stack_eq : t.stack = []
  before_eq : t.before = []
  rest_eq : t.rest = line
  restarted_eq : t.restarted = false
  quick : o.TakesQuick line

theorem Fresh.next (h : t.Fresh o line) (hn : t.next o {} = (.ok (some token),t')) :
    token.kind = .substitution ∧ t'.Settled o line := by
  obtain ⟨hhead,hlevel,hhistory⟩ := h.quick
  obtain ⟨rest,hline⟩ := List.head?_eq_some_iff.1 hhead
  have hrest : t.rest = '^' :: rest := h.rest_eq.trans hline
  have hsource : t.source = line := by rw [source,h.before_eq,h.rest_eq,List.nil_append]
  rcases hd : t.dispatch o {} '^' rest with ⟨e | token',u⟩
  · rw [next_error h.stack_eq hrest hd] at hn
    cases hn
  · rw [next_dispatch h.stack_eq hrest hd] at hn
    cases hn
    rw [dispatch,if_pos ⟨rfl,h.before_eq,rfl,h.restarted_eq,hlevel,hhistory⟩,hsource] at hd
    split at hd
    · cases hd
    · next text sub hsub =>
      cases hd
      refine ⟨rfl,?_,.inl rfl⟩
      rw [Options.lineRead,if_pos h.quick,hsub]
      rfl

end Tokenizer

/-- How a token begins that may not stand where it does: an operator with its own characters, a
command in grave accents with the first of these. -/
def Token.BeginsIn (token : Token) (text : Text) : Prop :=
  token.kind = .operator ∧ token.rawText <+: text ∨
    token.kind = .backtick ∧ ∃ rest width, text = '\x60' :: rest ∧
      Lexeme.quotedBody? '\x60' rest = some (token.value,width)

/-- A token that is refused, told by what is said of it: it begins in the text, and its place is
that of the character it begins with. -/
structure Token.RefusedAt (text : Text) (token : Token) (raw : Text) (place : Position) : Prop where
  source_eq : token.source = .input
  raw_eq : raw = token.rawText
  located : ∃ before after, text = before ++ after ∧ token.start = Text.byteSize before ∧
    token.BeginsIn after ∧ place = .behind before

theorem unexpected_eq {source : Text} {token : Token} {raw : Text} {place : Position}
    (h : unexpected source token = .parse (.unexpectedToken raw (some place))) :
    token.source = .input ∧ raw = token.rawText ∧ place = .ofOffset source token.start := by
  unfold unexpected at h
  split at h
  · next hsource =>
    cases h
    exact ⟨hsource,rfl,rfl⟩
  · cases h

namespace Parser

variable {σ : Type} {p p' : Parser σ} {o : Options σ} {line raw : Text} {place : Position}
  {t : Tokenizer} {token : Token}

theorem stepAwaitingVerb_refuses
    (h : p.stepAwaitingVerb none token = .error (.parse (.unexpectedToken raw (some place)))) :
    unexpected p.tokenizer.source token = .parse (.unexpectedToken raw (some place)) ∧
      (token.kind = .operator ∨ token.kind = .backtick ∨ token.kind = .member) := by
  unfold stepAwaitingVerb at h
  split at h
  · cases h
  · cases h
  · cases h
  · next hblank hhistory hsubstitution =>
    split at h
    · cases h
    · next hverb =>
      refine ⟨Except.error.inj h,?_⟩
      unfold Token.isVerb at hverb
      cases hk : token.kind <;> simp_all

theorem stepInCommand_refuses {c : OpenCommand σ}
    (h : p.stepInCommand c token = .error (.parse (.unexpectedToken raw (some place)))) :
    unexpected p.tokenizer.source token = .parse (.unexpectedToken raw (some place)) ∧
      token.kind = .operator := by
  unfold stepInCommand at h
  split at h
  · cases h
  · cases h
  · next hk =>
    split at h
    · cases h
    · split at h
      · cases h
      · split at h
        · cases h
        · split at h
          · cases h
          · exact ⟨Except.error.inj h,hk⟩
  · cases h

theorem stepRedirectTarget_refuses {c : OpenCommand σ} {pending : PendingRedirect}
    (h : p.stepRedirectTarget c pending token =
      .error (.parse (.unexpectedToken raw (some place)))) :
    unexpected p.tokenizer.source token = .parse (.unexpectedToken raw (some place)) ∧
      token.kind = .operator := by
  unfold stepRedirectTarget at h
  split at h
  · cases h
  · cases h
  · cases h
  · next hk => exact ⟨Except.error.inj h,hk⟩
  · cases h

/-- The tokens that are refused: operators, and between commands what cannot open one. -/
theorem step_refuses (hp : p.phase.Between ∨ ∃ c, p.phase.Within c)
    (h : step { p with tokenizer := t, phase := settle p.phase token } token =
      .error (.parse (.unexpectedToken raw (some place)))) :
    unexpected t.source token = .parse (.unexpectedToken raw (some place)) ∧
      (token.kind = .operator ∨
        p.phase.Between ∧ (token.kind = .backtick ∨ token.kind = .member)) := by
  have hawaiting {phase : ParserPhase σ} (hbetween : p.phase.Between)
      (h : stepAwaitingVerb { p with tokenizer := t, phase } none token =
        .error (.parse (.unexpectedToken raw (some place)))) :
      unexpected t.source token = .parse (.unexpectedToken raw (some place)) ∧
        (token.kind = .operator ∨
          p.phase.Between ∧ (token.kind = .backtick ∨ token.kind = .member)) :=
    (stepAwaitingVerb_refuses h).imp_right (Or.imp_right fun hk => ⟨hbetween,hk⟩)
  rcases hp with hbetween | ⟨c,hwithin⟩
  · have hbetween' := hbetween
    rcases hphase : p.phase with _ | _ | _ | _ | _ <;> rw [hphase] at hbetween h <;> cases hbetween
    · exact hphase ▸ hawaiting hbetween' h
    · exact hphase ▸ hawaiting hbetween' h
    · exact hphase ▸ hawaiting hbetween' h
  · cases hphase : p.phase with
    | inCommand d =>
      rw [hphase] at h
      exact (stepInCommand_refuses h).imp_right .inl
    | awaitingRedirectTarget d pending =>
      rw [hphase] at h
      unfold settle at h
      dsimp only at h
      split at h
      · exact (stepInCommand_refuses h).imp_right .inl
      · exact (stepRedirectTarget_refuses h).imp_right .inl
    | awaitingVerb | closed | done => rw [hphase] at hwithin; cases hwithin

theorem kind_of_closes {c : OpenCommand σ} {operator : Operator}
    (h : step p token = .ok (.close c operator)) : token.kind = .operator := by
  unfold step stepAwaitingVerb stepRedirectTarget at h
  split at h
  case h_2 =>
    cases stepInCommand_placed h with
    | closes hk => exact hk
  all_goals
    repeat' split at h
    all_goals cases h

/-- A parser that has come some way into a line: no token is in waiting but what the history has
brought in, and between commands nothing has been read that could have a member. -/
structure Inside (o : Options σ) (line : Text) (p : Parser σ) : Prop where
  reader : p.tokenizer.Settled o line ∨ p.tokenizer.Fresh o line ∧ p.phase.Between
  brought : p.tokenizer.Brought
  options_eq : p.options = o
  phase : p.phase.Between ∧ p.tokenizer.previous ≠ some .variable ∧
      p.tokenizer.previous ≠ some .member ∨ ∃ c, p.phase.Within c

theorem inside_new (line : Text) (o : Options σ) (settings : Settings)
    (sub : Option History.Substitution) : (new line o settings sub).restart.Inside o line where
  reader := by
    by_cases hquick : o.TakesQuick line
    · exact .inr ⟨⟨rfl,rfl,rfl,rfl,hquick⟩,.awaitingVerb⟩
    · exact .inl ⟨by rw [Options.lineRead,if_neg hquick]; rfl,.inr (.inr hquick)⟩
  brought := List.forall_mem_nil _
  options_eq := rfl
  phase := .inl ⟨.awaitingVerb,nofun,nofun⟩

namespace Inside

theorem between_or_within (h : p.Inside o line) : p.phase.Between ∨ ∃ c, p.phase.Within c :=
  h.phase.imp_left And.left

theorem next (h : p.Inside o line)
    (hn : p.tokenizer.next p.grammar p.context = (.ok (some token),t)) :
    t.Settled o line ∧ (p.tokenizer.Settled o line ∨ token.kind = .substitution) := by
  rcases h.reader with hsettled | ⟨hfresh,hbetween⟩
  · refine ⟨hsettled.next (fun hctx => ?_) hn,.inl hsettled⟩
    rcases h.between_or_within with hbetween | ⟨c,hwithin⟩
    · exact (reader_between hbetween).1.trans h.options_eq
    · rw [(reader_within hwithin).2] at hctx
      cases hctx
  · obtain ⟨hgrammar,hcontext⟩ := reader_between hbetween
    rw [hgrammar,hcontext,h.options_eq] at hn
    obtain ⟨hkind,hsettled⟩ := hfresh.next hn
    exact ⟨hsettled,.inr hkind⟩

theorem goesOn {phase : ParserPhase σ} (h : p.Inside o line)
    (hn : p.tokenizer.next p.grammar p.context = (.ok (some token),t))
    (hs : step { p with tokenizer := t, phase := settle p.phase token } token =
      .ok (.goOn phase)) : Inside o line { p with tokenizer := t, phase } where
  reader := .inl (h.next hn).1
  brought := (h.brought.next hn).1
  options_eq := h.options_eq
  phase := by
    rcases h.between_or_within with hbetween | ⟨c,hwithin⟩
    · rcases step_between hbetween hs with ⟨hgo,hk⟩ | ⟨hgo,-⟩
      · cases hgo
        refine .inl ⟨.awaitingVerb,?_,?_⟩ <;> rw [Tokenizer.previous_of_next hn] <;>
          rcases hk with hk | hk | hk <;> rw [hk] <;> decide
      · cases hgo
        exact .inr ⟨_,.inCommand _⟩
    · rcases step_within hwithin hs with ⟨_,d,hgo,hd,-⟩ | ⟨_,_,hclose,-⟩
      · cases hgo
        exact .inr ⟨d,hd⟩
      · cases hclose

/-- An operator closes a command, so that nothing before the next one could have a member. -/
theorem reads {tokens : List Token} {c : OpenCommand σ} {operator : Operator} (h : p.Inside o line)
    (hreads : Reads p tokens (some (c,some operator)) p') : p'.restart.Inside o line := by
  generalize hout : some (c,some operator) = out at hreads
  induction hreads with
  | @ends p t c' => cases c' <;> cases hout
  | @closes p t token c' operator' hn hs =>
    have hprevious : t.previous = some .operator :=
      (Tokenizer.previous_of_next hn).trans (congrArg some (kind_of_closes hs))
    refine ⟨.inl (h.next hn).1,(h.brought.next hn).1,h.options_eq,.inl ⟨.awaitingVerb,?_,?_⟩⟩
    · show t.previous ≠ _
      rw [hprevious]
      decide
    · show t.previous ≠ _
      rw [hprevious]
      decide
  | goesOn hn hs _ ih => exact ih (h.goesOn hn hs) hout

theorem refused (h : p.Inside o line)
    (hn : p.tokenizer.next p.grammar p.context = (.ok (some token),t))
    (hs : step { p with tokenizer := t, phase := settle p.phase token } token =
      .error (.parse (.unexpectedToken raw (some place)))) :
    token.RefusedAt (o.lineRead line) raw place := by
  obtain ⟨hunexpected,hkind⟩ := step_refuses h.between_or_within hs
  obtain ⟨hsource,hraw,hplace⟩ := unexpected_eq hunexpected
  have hno : token.kind ≠ .substitution := by
    rcases hkind with hk | ⟨-,hk | hk⟩ <;> rw [hk] <;> decide
  obtain ⟨hsettled,hbefore⟩ := h.next hn
  have hshows : p.tokenizer.Shows token := by
    rcases (h.brought.next hn).2 with hhistory | hshows | hk
    · rw [hsource] at hhistory
      cases hhistory
    · exact hshows
    · exact absurd hk hno
  have htext : o.lineRead line = p.tokenizer.before ++ p.tokenizer.rest :=
    (hbefore.resolve_right hno).source_eq.symm
  refine ⟨hsource,hraw,_,_,htext,hshows.start_eq,?_,?_⟩
  · rcases hkind with hk | ⟨hbetween,hk | hk⟩
    · have hvalue : token.rawText = token.value := by rw [Token.rawText,hk]
      exact .inl ⟨hk,hvalue ▸ hshows.operator hk⟩
    · exact .inr ⟨hk,hshows.backtick hk⟩
    · -- No token before it could have a member.
      rcases h.phase with ⟨-,hvariable,hmember⟩ | ⟨c,hwithin⟩
      · exact (hshows.member hk).elim (fun hp => absurd hp hvariable) fun hp => absurd hp hmember
      · cases hbetween.current?.symm.trans hwithin.current?
  · rw [hplace,hsettled.source_eq,htext,hshows.start_eq]
    exact Position.ofOffset_append _ _

end Inside

theorem Stumbles.refused {tokens : List Token} {e : Error} (h : Stumbles p tokens token e)
    (hp : p.Inside o line) (he : e = .parse (.unexpectedToken raw (some place))) :
    token.RefusedAt (o.lineRead line) raw place := by
  induction h with
  | here hn hs => exact hp.refused hn (he ▸ hs)
  | goesOn hn hs _ ih => exact ih (hp.goesOn hn hs) he

theorem StumblesLine.refused {tokens : List Token} {e : Error} (h : StumblesLine p tokens token e)
    (hp : p.restart.Inside o line) (he : e = .parse (.unexpectedToken raw (some place))) :
    token.RefusedAt (o.lineRead line) raw place := by
  induction h with
  | here h => exact h.refused hp he
  | later hreads _ ih => exact ih (hp.reads hreads) he

end Parser

/-- A syntax error with a place points at the token that may not stand where it does. -/
theorem parseLine_locates {σ : Type} {line : Text} {o : Options σ} {settings : Settings}
    {sub : Option History.Substitution} {w : σ} {raw : Text} {place : Position}
    (h : (parseLine line o settings sub w).1 =
      .error (.parse (.unexpectedToken raw (some place)))) :
    ∃ tokens token, (Parser.new line o settings sub).StumblesLine tokens token
        (.parse (.unexpectedToken raw (some place))) ∧
      token.RefusedAt (o.lineRead line) raw place := by
  rcases parseLine_error_cases h with he | he | ⟨operator,he⟩ | ⟨tokens,token,hstumbles⟩
  · exact he.elim
  · cases he
  · cases he
  · exact ⟨tokens,token,hstumbles,hstumbles.refused (Parser.inside_new line o settings sub) rfl⟩

/-- Two lines: a verb and an operator, and a verb with two operators behind it. -/
def doubledOperator : Text := ['é',';','\n','é','|','|','&','&']

theorem stumbles_doubledOperator : ∃ tokens token,
    (Parser.new (σ := Unit) doubledOperator {} (fun _ => none) none).StumblesLine tokens token
      (.parse (.unexpectedToken ['&','&'] (some ⟨2,4,8⟩))) := by
  let t₁ : Tokenizer :=
    ⟨['é'],[';','\n','é','|','|','&','&'],[],some .word,none,false,false,['é']⟩
  let t₂ : Tokenizer :=
    ⟨['é',';'],['\n','é','|','|','&','&'],[],some .operator,none,false,false,['é',';']⟩
  let t₃ : Tokenizer :=
    ⟨['é',';','\n'],['é','|','|','&','&'],[],some .blank,none,false,false,['é',';','\n']⟩
  let t₄ : Tokenizer :=
    ⟨['é',';','\n','é'],['|','|','&','&'],[],some .word,none,false,false,['é',';','\n','é']⟩
  let t₅ : Tokenizer := ⟨['é',';','\n','é','|','|'],['&','&'],[],some .operator,none,false,false,
    ['é',';','\n','é','|','|']⟩
  let t₆ : Tokenizer := ⟨doubledOperator,[],[],some .operator,none,false,false,doubledOperator⟩
  exact ⟨_,_,.later (.goesOn (t := t₁) rfl rfl <| .closes (t := t₂) rfl rfl) <|
    .later (.goesOn (t := t₃) rfl rfl <| .goesOn (t := t₄) rfl rfl <|
      .closes (t := t₅) rfl rfl) <|
    .here (.here (t := t₆) rfl rfl)⟩

/-- The second of two operators is found in the second line, behind three characters. -/
theorem parseLine_locates_doubled :
    (parseLine (σ := Unit) doubledOperator {} (fun _ => none) none ()).1 =
      .error (.parse (.unexpectedToken ['&','&'] (some ⟨2,4,8⟩))) ∧
    ∃ token : Token, token.RefusedAt doubledOperator ['&','&'] ⟨2,4,8⟩ := by
  obtain ⟨tokens,token,hstumbles⟩ := stumbles_doubledOperator
  have hparse := hstumbles.parseLine_eq ()
  obtain ⟨-,bad,-,hrefused⟩ := parseLine_locates hparse
  exact ⟨hparse,bad,hrefused⟩

end Realm
