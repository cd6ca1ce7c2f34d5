import Realm.Proofs.Command.Classification
import Realm.Proofs.Command.Standing

/-! An alias for a verb behaves like the verb. The line of the alias is put together from the words
behind it and cut again; where nothing is quoted, protected or referred to, the same words come
out. What is read behind the two names is read by one grammar, at other places. -/
namespace Realm

section Mild

variable {σ : Type} {o : Options σ} {ctx : LexContext} {previous : Option Token.Kind} {start : Nat}
  {c : Char} {t : Text} {lexeme : Lexeme}

/-- A character that quotes, protects or refers. -/
def isQuotingMark (c : Char) : Bool :=
  ['\'','"','\\','\x60','$','!'].contains c

def Lexeme.IsMild (lexeme : Lexeme) (c : Char) (t : Text) : Prop :=
  lexeme.Stands c t ∨ lexeme.kind = .operator ∧ lexeme.value ≠ ['=']

theorem Lexeme.special_mild {g : Grammar} (hc : isQuotingMark c = false)
    (hb : Text.isBlank c = false) (he : ctx.expression = false)
    (h : special g ctx start c t = .ok lexeme) : lexeme.IsMild c t := by
  have hsingle : (single .word c).IsMild c t := .inl (single_stands hb)
  unfold special at h
  split at h
  all_goals first | cases hc | skip
  case h_11 => rw [he] at h; cases h; exact hsingle
  all_goals repeat' split at h
  all_goals cases h; first | exact hsingle | exact .inr ⟨rfl,by decide⟩

def Token.IsMild (t : Token) : Prop :=
  t.IsBare ∨ t.kind = .operator ∧ t.value ≠ ['=']

/-- A reader before a text in which nothing is quoted, protected or referred to. -/
structure Tokenizer.Mild (history : List Text) (t : Tokenizer) : Prop where
  calm : Calm history t
  unmarked : ∀ c ∈ t.rest, isQuotingMark c = false
  no_member : t.previous ≠ some .variable ∧ t.previous ≠ some .member

theorem Tokenizer.Mild.next {t t' : Tokenizer} {s : Token} (h : t.Mild o.history)
    (hc : ctx.inCommand = true) (he : ctx.expression = false)
    (hn : t.next o ctx = (.ok (some s),t')) : s.IsMild ∧ t'.Mild o.history := by
  obtain ⟨c,rest,lexeme,htakes⟩ := h.calm.next hn
  have hcalias : (!ctx.inCommand && (o.charAlias? c).isSome) = false := by rw [hc]; rfl
  have hmember : Lexeme.member? o.toGrammar t.previous c rest = none :=
    if_neg fun hm => hm.2.2.elim h.no_member.1 h.no_member.2
  have hlexeme : lexeme.IsMild c rest := by
    rcases Lexeme.scan_cases t.index hcalias hmember with
      ⟨stands,hscan,hstands⟩ | ⟨hb,hspecial⟩
    · cases htakes.scan_eq.symm.trans hscan
      exact .inl hstands
    · exact Lexeme.special_mild (h.unmarked c (htakes.rest_eq ▸ .head _)) hb he
        (hspecial.symm.trans htakes.scan_eq)
  obtain ⟨hkind,hvalue⟩ := Prod.mk.inj htakes.spelling_eq
  have hrest : ∀ d ∈ t'.rest, isQuotingMark d = false := fun d hd =>
    h.unmarked d (htakes.rest_subset hd)
  rcases hlexeme with hstands | ⟨hoperator,hequals⟩
  · refine ⟨.inl ⟨?_,?_⟩,htakes.calm,hrest,?_⟩
    · obtain ⟨n,hwidth⟩ := Nat.exists_eq_succ_of_ne_zero (Nat.ne_of_gt lexeme.width_pos)
      rw [hvalue,hstands.value_eq,hwidth]
      exact nofun
    · rw [hkind,hvalue]
      exact hstands.bare
    · rw [htakes.previous_eq]
      rcases hstands.bare with ⟨hk,-⟩ | ⟨hk | hk,-⟩ <;> rw [hk] <;> decide
  · refine ⟨.inr ⟨hkind.trans hoperator,hvalue ▸ hequals⟩,htakes.calm,hrest,?_⟩
    rw [htakes.previous_eq,hoperator]
    decide

end Mild

section Arguments

variable {σ : Type} {o : Options σ} {p p' : Parser σ} {c d : OpenCommand σ} {tokens : List Token}
  {out : Option (OpenCommand σ × Option Operator)} {operator : Option Operator}

theorem Parser.Reads.mild (h : Reads p tokens out p') (hp : p.phase.Within c)
    (hk : c.command.kind ≠ .expression) (ht : p.tokenizer.Mild c.options.history) :
    ∀ s ∈ tokens, s.IsMild := by
  have hnext {p : Parser σ} {c : OpenCommand σ} {s : Token} {t : Tokenizer}
      (hp : p.phase.Within c) (hk : c.command.kind ≠ .expression)
      (ht : p.tokenizer.Mild c.options.history)
      (hn : p.tokenizer.next p.grammar p.context = (.ok (some s),t)) :
      s.IsMild ∧ t.Mild c.options.history := by
    rw [(reader_within hp).1,(reader_within hp).2] at hn
    exact ht.next rfl (decide_eq_false hk) hn
  induction h generalizing c with
  | ends => exact List.forall_mem_nil _
  | closes hn => exact List.forall_mem_singleton.2 (hnext hp hk ht hn).1
  | goesOn hn hs _ ih =>
    obtain ⟨htoken,ht'⟩ := hnext hp hk ht hn
    rcases step_within hp hs with ⟨_,d,hgo,hwithin,hgrows⟩ | ⟨_,_,hclose,-⟩
    · cases hgo
      exact List.forall_mem_cons.2 ⟨htoken,ih hwithin (hgrows.kind_eq ▸ hk)
        (hgrows.options_eq ▸ ht')⟩
    · cases hclose

/-- If a blank is the first thing behind a verb, the command ends there or goes on with it. -/
theorem Parser.Reads.parts (h : Reads p tokens out p') (hp : p.phase = .inCommand c)
    (ht : p.tokenizer.Calm c.options.history)
    (hblank : ∀ ch ∈ p.tokenizer.rest.head?, Text.isBlank ch = true) :
    out = some (c,none) ∨ ∃ t d operator, t.kind = .blank ∧ out = some (d,operator) ∧
      (c.push t).Grows d := by
  have hwithin : p.phase.Within c := hp ▸ .inCommand c
  have hkind {s : Token} {t : Tokenizer}
      (hn : p.tokenizer.next p.grammar p.context = (.ok (some s),t)) : s.kind = .blank := by
    rw [(reader_within hwithin).1,(reader_within hwithin).2] at hn
    obtain ⟨ch,rest,lexeme,htakes⟩ := ht.next hn
    have hch := hblank ch (by rw [htakes.rest_eq]; rfl)
    have hscan := htakes.scan_eq
    have hdot : ch ≠ '.' := by rintro rfl; cases hch
    have hmember : Lexeme.member? c.options.toGrammar p.tokenizer.previous ch rest = none :=
      if_neg fun hm => hdot hm.1
    simp only [Lexeme.scan,OpenCommand.context,Bool.not_true,Bool.false_and,hmember,hch] at hscan
    cases hscan
    exact (Prod.mk.inj htakes.spelling_eq).1
  have hstep {s : Token} {t : Tokenizer} (hs : s.kind = .blank) :
      step { p with tokenizer := t, phase := settle p.phase s } s =
        .ok (.goOn (.inCommand (c.push s))) := by
    rw [hp]
    show stepInCommand _ c s = _
    unfold stepInCommand
    rw [hs]
  cases h with
  | ends hn ha =>
    rw [hp] at ha
    cases ha
    exact .inl rfl
  | closes hn hs =>
    rw [hstep (hkind hn)] at hs
    cases hs
  | goesOn hn hs hreads =>
    rw [hstep (hkind hn)] at hs
    cases hs
    obtain ⟨d,operator,hout,hgrows⟩ := hreads.grows (.inCommand _)
    exact .inr ⟨_,d,operator,hkind hn,hout,hgrows⟩

def Command.unread (kind : Command.Kind) : Command where
  verb := []
  args := []
  tokens := []
  kind
  redirects := []
  globArgs := []

/-- What is read of such a text behind a verb is parts of words and redirections. -/
theorem Parser.Reads.bare {kind : Command.Kind} (h : Reads p tokens (some (d,operator)) p')
    (hp : p.phase = .inCommand ⟨.unread kind,o⟩) (hk : kind ≠ .expression)
    (ht : p.tokenizer.Mild o.history) : ∀ t ∈ d.command.tokens, t.IsBare ∨ t.isRedirect = true := by
  -- What a command is made of is told of commands with a verb, so one is put in front.
  let verb := Token.ofSpelling (.word,[])
  have hwithin : p.phase.Within ⟨.unread kind,o⟩ := hp ▸ .inCommand _
  have hread : (p.headed verb).read = (.ok (some (d.headed verb,operator)),p'.headed verb) := by
    rw [read_headed hwithin,h.read_eq]
    rfl
  have hphase : (p.headed verb).phase = .inCommand ⟨.opened verb kind,o⟩ := by
    show p.phase.headed verb = _
    rw [hp]
    rfl
  obtain ⟨_,hreads⟩ := reads_of_read hread
  have hheaded : (p.headed verb).phase.Within ⟨.opened verb kind,o⟩ := hphase ▸ .inCommand _
  have hmild := hreads.mild hheaded hk ht
  have hdraws : (p.headed verb).phase.Draws Token.IsMild verb :=
    hphase ▸ .inCommand ⟨⟨rfl,rfl,List.forall_mem_nil _⟩,List.forall_mem_nil _,rfl⟩
  obtain ⟨_,_,args,hout,hdrawn⟩ := hreads.drawn_within hdraws hmild
  cases hout
  obtain ⟨-,rfl⟩ := List.cons.inj hdrawn.tokens_eq
  intro t ht
  obtain ⟨s,hs,hbecomes⟩ := hdrawn.drawn t ht
  cases hbecomes with
  | kept _ _ hequals =>
    rcases hs with hbare | ⟨hoperator,hne⟩
    · exact .inl hbare
    · exact absurd (hequals hoperator) hne
  | aimed hoperator hkind => exact .inr (by simp [Token.isRedirect,hoperator,hkind])

/-- If a blank is the first thing behind a verb, it is the first token of what is read. -/
theorem Parser.Reads.apart {kind : Command.Kind} (h : Reads p tokens (some (d,operator)) p')
    (hp : p.phase = .inCommand ⟨.unread kind,o⟩) (ht : p.tokenizer.Calm o.history)
    (hblank : ∀ ch ∈ p.tokenizer.rest.head?, Text.isBlank ch = true) :
    ∀ t ∈ d.command.tokens.head?, t.kind = .blank := by
  rcases h.parts hp ht hblank with hout | ⟨t,_,_,hk,hout,hgrows⟩
  · cases hout
    exact nofun
  · cases hout
    obtain ⟨more,hmore⟩ := hgrows.tokens_kept
    rw [← hmore]
    rintro s ⟨⟩
    exact hk

end Arguments

section Words

variable {σ : Type} {o : Options σ} {verb : Token} {args : List Token}

/-- What stands behind a verb: parts of words and redirections, behind a blank. -/
structure Token.AreArguments (args : List Token) : Prop where
  bare : ∀ t ∈ args, t.IsBare ∨ t.isRedirect = true
  apart : ∀ t ∈ args.head?, t.kind = .blank

def Token.gapped (t : Token) : Token :=
  if t.isRedirect then { t with kind := .blank, value := [' '] } else t

theorem Token.gapped_bare {t : Token} (h : t.IsBare ∨ t.isRedirect = true) : t.gapped.IsBare := by
  unfold gapped
  split
  · exact ⟨List.cons_ne_nil _ _,.inl ⟨rfl,List.forall_mem_singleton.2 rfl⟩⟩
  · next hno => exact h.resolve_right hno

theorem Fragment.ofTokens_gapped (isVerb : Bool) (h : ∀ t ∈ args, t.IsBare ∨ t.isRedirect = true) :
    ofTokens isVerb (args.map Token.gapped) = ofTokens isVerb args := by
  induction args generalizing isVerb with
  | nil => rfl
  | cons t ts ih =>
    obtain ⟨ht,hts⟩ := List.forall_mem_cons.1 h
    rw [List.map_cons]
    by_cases hr : t.isRedirect = true
    · obtain ⟨hk,hkind⟩ : t.kind = .operator ∧ (Redirect.Kind.ofText? t.value).isSome = true := by
        simpa [Token.isRedirect] using hr
      have hgapped : t.gapped.kind = .blank := by simp [Token.gapped,hr]
      rw [ofTokens,ofTokens,hgapped,hk,ih false hts]
      simp [hkind]
    · have hgapped : t.gapped = t := if_neg hr
      obtain ⟨-,⟨hk,-⟩ | ⟨hk | hk,-⟩⟩ := ht.resolve_right hr <;>
        rw [hgapped,ofTokens,ofTokens,hk,ih false hts]

theorem Word.ofTokens_arguments (h : Token.AreArguments args) (o : Options σ) (expand : Bool) :
    ∃ texts : List Text, (∀ x ∈ texts, x.IsSolid ∧ x ≠ []) ∧
      ∀ verb : Token, verb.value.IsSolid → verb.value ≠ [] →
        verb.kind = .word ∨ verb.kind = .alias → ∀ w,
        ofTokens o expand (verb :: args) w = ((verb.value :: texts).map plainWord,w) := by
  let text := (args.map Token.gapped).flatMap (·.value)
  have hbare : ∀ t ∈ args.map Token.gapped, t.IsBare :=
    List.forall_mem_map.2 fun t ht => Token.gapped_bare (h.bare t ht)
  have hstop : ∀ c ∈ text.head?, Text.isBlank c = true := by
    cases args with
    | nil => exact nofun
    | cons t ts =>
      obtain ⟨hne,⟨-,hblank⟩ | ⟨hk | hk,-⟩⟩ := hbare _ (.head _)
      · obtain ⟨c,value,hvalue⟩ := List.exists_cons_of_ne_nil hne
        intro d hd
        rw [show text = t.gapped.value ++ _ from rfl,hvalue] at hd
        cases hd
        exact hblank c (hvalue ▸ .head _)
      all_goals
        have hblank := h.apart t rfl
        simp [Token.gapped,Token.isRedirect,hblank] at hk
  refine ⟨Text.words text,fun x hx => Text.solid_of_mem_words hx,?_⟩
  intro verb hsolid hne hk w
  rcases hk with hk | hk
  · have hverb : verb.IsBare := ⟨hne,.inr ⟨.inl hk,hsolid⟩⟩
    have hall : ∀ t ∈ verb :: args, t.IsBare ∨ t.isRedirect = true :=
      List.forall_mem_cons.2 ⟨.inl hverb,h.bare⟩
    have hgapped : verb.gapped = verb := by simp [Token.gapped,Token.isRedirect,hk]
    have hwords := ofFragments_bare o expand true (List.forall_mem_map.2 fun t ht =>
      Token.gapped_bare (hall t ht)) (x := []) (List.forall_mem_nil _) w
    rw [Fragment.ofTokens_gapped true hall,List.map_cons,List.flatMap_cons,hgapped,List.nil_append,
      Text.words_first hsolid hne hstop] at hwords
    exact hwords
  · have hwords := ofFragments_bare o expand false hbare (x := []) (List.forall_mem_nil _) w
    rw [Fragment.ofTokens_gapped false h.bare,List.nil_append] at hwords
    rw [ofTokens,Fragment.ofTokens_alias hk,ofFragments]
    simp only [bind,StateT.bind]
    rw [show (none : Option Word) = begunWord [] from rfl,hwords]
    rfl

end Words

section Expanding

variable {σ : Type} {v template : Text} {args : List Text}

namespace Alias

/-- The templates that stand for a verb. -/
inductive StandsFor (v : Text) : Text → Prop
  | verb : StandsFor v v
  | words : StandsFor v (v ++ [' ','$','*'])

theorem unnamed_eq_self {ps : List Piece} (h : ∀ p ∈ ps, ∀ digits, p ≠ .argument digits) :
    unnamed ps args = args := by
  have hno (n : Nat) : isNamed ps n = false := by
    refine List.any_eq_false.2 fun p hp => ?_
    cases p with
    | argument digits => exact absurd rfl (h _ hp digits)
    | char | others | «variable» => exact nofun
  unfold unnamed
  simp only [hno]
  exact List.filterMap_eq_map.symm ▸ List.zipIdx_map_fst 1 args

theorem expand_standsFor (o : Options σ) (expandVariables : Bool) (name : Text)
    (h : StandsFor v template) (hv : '$' ∉ v) (hargs : ∀ x ∈ args, x.IsSolid ∧ x ≠ []) (s : σ) :
    ∃ out, expand o expandVariables name template args s = (v ++ out,s) ∧
      Text.words out = args ∧ ∀ c ∈ out.head?, Text.isBlank c = true := by
  have hunnamed {ps : List Piece} (hps : ∀ p ∈ ps, ∀ digits, p ≠ .argument digits) :
      unnamed (v.map .char ++ ps) args = args :=
    unnamed_eq_self (List.forall_mem_append.2 ⟨List.forall_mem_map.2 fun _ _ _ => nofun,hps⟩)
  have hjoined : Text.words (' ' :: Text.join [' '] args) = args := by
    rw [Text.words_blank_cons (by decide),Text.words_join hargs]
  have hblank : ∀ c ∈ (' ' :: Text.join [' '] args).head?, Text.isBlank c = true := by
    rintro c ⟨⟩
    decide
  cases h with
  | verb =>
    have hpieces : pieces v = v.map .char ++ [] := by
      have h := pieces_plain hv []
      rwa [List.append_nil,pieces_nil] at h
    have hno : ¬ ['$','*'] <:+: v := fun hin => hv (hin.subset (.head _))
    rw [expand_eq,hpieces]
    dsimp only
    rw [hunnamed (List.forall_mem_nil _),replaced_plain,replaced]
    by_cases hnil : args = []
    · rw [if_pos (.inr hnil)]
      exact ⟨[],rfl,hnil.symm ▸ rfl,by rintro _ ⟨⟩⟩
    · rw [if_neg (not_or.2 ⟨hno,hnil⟩),List.append_nil]
      exact ⟨_,rfl,hjoined,hblank⟩
  | words =>
    have hpieces : pieces (v ++ [' ','$','*']) = v.map .char ++ [.char ' ',.others] := by
      rw [pieces_plain hv,pieces_char (fun h => absurd h (by decide)),
        pieces_reference (reference?_star []),pieces_nil]
    have hyes : ['$','*'] <:+: v ++ [' ','$','*'] := ⟨v ++ [' '],[],by simp⟩
    have hothers : (Piece.others).expand o expandVariables name args args =
      pure (Text.join [' '] args) := rfl
    have hspace : (Piece.char ' ').expand o expandVariables name args args = pure [' '] := rfl
    rw [expand_eq,hpieces]
    dsimp only
    rw [hunnamed (by simp),replaced_plain,replaced_pure hspace,replaced_pure hothers,replaced,
      if_pos (.inl hyes),List.append_nil]
    exact ⟨_,rfl,hjoined,hblank⟩

end Alias

end Expanding

section Compiling

variable {σ : Type} {o : Options σ} {c : OpenCommand σ} {x v : Text}

/-- A word of ASCII letters. -/
structure Text.IsLetters (x : Text) : Prop where
  ne_nil : x ≠ []
  letters : ∀ c ∈ x, c.isAlpha = true

theorem Text.IsLetters.solid (h : x.IsLetters) : x.IsSolid :=
  fun c hc => (letter_class (h.letters c hc)).2.1

theorem Text.IsLetters.isVerb (h : x.IsLetters) : x.IsVerb :=
  .inl fun c hc => (letter_class (h.letters c hc)).1

theorem Text.IsLetters.not_dollar (h : x.IsLetters) : '$' ∉ x :=
  fun hc => absurd (h.letters _ hc) (by decide)

/-- The first token of a command for a verb: the verb itself, or an alias for it. -/
inductive Token.StandsFor (aliases : Table Text Text) (v : Text) (t : Token) : Prop
  | verb : t.kind = .word → t.value = v → StandsFor aliases v t
  | expanded {template : Text} : t.kind = .alias → aliases.get? t.value = some template →
    Alias.StandsFor v template → StandsFor aliases v t

theorem OpenCommand.compile_headed (hargs : Token.AreArguments c.command.tokens)
    (hk : c.command.kind ≠ .expression) (hv : v.IsLetters) : ∃ args globArgs, ∀ verb : Token,
      verb.value.IsLetters → verb.StandsFor c.options.aliases v →
        (c.headed verb).command.compile c.options =
          pure { (c.headed verb).command with verb := v, args, globArgs } := by
  obtain ⟨args,hsolid,hwords⟩ := Word.ofTokens_arguments hargs c.options c.options.expandVariables
  refine ⟨args,if c.options.expandFileExpressions then placesOf hasGlob args else [],?_⟩
  intro verb hverb hstands
  funext w
  cases hstands with
  | verb hword hvalue =>
    have hnone : (c.headed verb).command.alias? c.options = none := by
      simp [Command.alias?,headed,hword]
    have hwords := hwords verb hverb.solid hverb.ne_nil (.inl hword) w
    rw [hvalue] at hwords
    exact Command.compile_plainWords hnone hk hwords
  | @expanded template halias htemplate hfor =>
    have hsome : (c.headed verb).command.alias? c.options = some (verb.value,template) := by
      simp [Command.alias?,headed,halias,htemplate]
    have hexpand : (c.options.expandVariables &&
        !decide ((c.headed verb).command.kind = .expression)) = c.options.expandVariables := by
      rw [show (c.headed verb).command.kind = c.command.kind from rfl,decide_eq_false hk]
      exact Bool.and_true _
    have hwords := hwords verb hverb.solid hverb.ne_nil (.inr halias) w
    rw [← hexpand] at hwords
    obtain ⟨out,hline,hout,hblank⟩ := Alias.expand_standsFor c.options c.options.expandVariables
      verb.value hfor hv.not_dollar hsolid w
    rw [Command.compile_expansion hsome hwords,hexpand]
    dsimp only
    rw [map_text_plainWord,hline,← List.nil_append (v ++ out),
      Alias.splitLine_verb (List.forall_mem_nil _) hv.solid hv.ne_nil hv.isVerb hblank,hout]
    rfl

end Compiling

section Opening

variable {σ : Type} {o : Options σ} {settings : Settings} {sub : Option History.Substitution}
  {v y rest : Text} {token : Token}

def OpenCommand.unheaded (o : Options σ) (settings : Settings) (name : Text) : OpenCommand σ :=
  match settings name with
  | some grammar => ⟨.unread .shell,o.forCommand grammar⟩
  | none => ⟨.unread .game,o⟩

theorem OpenCommand.unheaded_spec (o : Options σ) (settings : Settings) (name : Text) :
    ∃ kind grammar, kind ≠ .expression ∧
      unheaded o settings name = ⟨.unread kind,o.forCommand grammar⟩ := by
  unfold unheaded
  cases settings name with
  | none => exact ⟨.game,o.toGrammar,nofun,rfl⟩
  | some grammar => exact ⟨.shell,grammar,nofun,rfl⟩

theorem OpenCommand.ofVerb_headed (hk : token.kind ≠ .variable) :
    ofVerb o settings token =
      (unheaded o settings (lookupName o (promote o token))).headed (promote o token) := by
  rw [ofVerb_eq,if_neg hk]
  unfold ofSettings unheaded
  cases settings (lookupName o (promote o token)) <;> rfl

/-- A name of a verb: the verb, if it is no alias, and every alias for it. -/
inductive Options.Names (o : Options σ) (v : Text) : Text → Prop
  | verb : o.aliases.get? v = none → Names o v v
  | expanded {y template : Text} : o.expandAliases = true → o.aliases.get? y = some template →
    Alias.StandsFor v template → Names o v y

theorem Alias.StandsFor.head_words {template : Text} (h : StandsFor v template)
    (hv : v.IsLetters) : (Text.words template).head? = some v := by
  cases h with
  | verb => rw [Text.words_eq_singleton hv.solid hv.ne_nil]; rfl
  | words => rw [Text.words_first hv.solid hv.ne_nil (by rintro c ⟨⟩; decide)]; rfl

theorem Options.Names.promote (h : o.Names v y) (hv : v.IsLetters) (hk : token.kind = .word)
    (hvalue : token.value = y) :
    (OpenCommand.promote o token).value = y ∧
      OpenCommand.lookupName o (OpenCommand.promote o token) = v ∧
        (OpenCommand.promote o token).StandsFor o.aliases v := by
  cases h with
  | verb hnone =>
    have hself : OpenCommand.promote o token = token := by
      simp [OpenCommand.promote,hvalue,Table.contains,hnone]
    rw [hself]
    exact ⟨hvalue,by simp [OpenCommand.lookupName,hk,hvalue],.verb hk hvalue⟩
  | @expanded _ template hexpand htemplate hfor =>
    have halias : OpenCommand.promote o token = { token with kind := .alias } := by
      simp [OpenCommand.promote,hk,hexpand,hvalue,Table.contains,htemplate]
    rw [halias]
    refine ⟨hvalue,?_,.expanded rfl (hvalue.symm ▸ htemplate) hfor⟩
    simp [OpenCommand.lookupName,hvalue,htemplate,hfor.head_words hv]

/-- A parser that has just read the name of a verb, and holds the command without it. -/
structure Parser.Opens (o : Options σ) (settings : Settings) (v rest : Text) (p : Parser σ) :
    Prop where
  options_eq : p.options = o
  settings_eq : p.settings = settings
  phase_eq : p.phase = .inCommand (.unheaded o settings v)
  rest_eq : p.tokenizer.rest = rest
  previous_eq : p.tokenizer.previous = some .word
  calm : p.tokenizer.Calm o.history

theorem Parser.opens (settings : Settings) (sub : Option History.Substitution) (h : o.Names v y)
    (hv : v.IsLetters) (hy : y.IsLetters) (hblank : ∀ c ∈ rest.head?, Text.isBlank c = true)
    (hmark : '!' ∉ rest) :
    ∃ verb p, verb.value = y ∧ verb.StandsFor o.aliases v ∧ Opens o settings v rest p ∧
      (Parser.new (y ++ rest) o settings sub).restart.read = (p.headed verb).read := by
  obtain ⟨c,letters,rfl⟩ := List.exists_cons_of_ne_nil hy.ne_nil
  let q := (Parser.new (c :: letters ++ rest) o settings sub).restart
  have hcalm : q.tokenizer.Calm o.history := by
    refine ⟨rfl,.inr ⟨List.not_mem_append (fun hmem => ?_) hmark,fun _ hfirst => ?_⟩⟩
    · exact absurd (hy.letters _ hmem) (by decide)
    · cases hfirst
      exact absurd (hy.letters _ (.head _)) (by decide)
  have hscan : Lexeme.scan o q.context q.tokenizer.previous q.tokenizer.index c (letters ++ rest) =
      .ok (Lexeme.run .word c letters) := scan_letters hy.letters hblank
  obtain ⟨token,t,hnext,htakes⟩ := hcalm.takes rfl hscan
  have hk : token.kind = .word := congrArg Prod.fst htakes.spelling_eq
  obtain ⟨hverb,hlookup,hstands⟩ := h.promote hv hk (congrArg Prod.snd htakes.spelling_eq)
  have hopens := step_opens (p := q) rfl (by rw [Token.isVerb,hk]) t
  have hheaded : OpenCommand.ofVerb q.options q.settings token =
      (OpenCommand.unheaded o settings v).headed (OpenCommand.promote o token) := by
    rw [← hlookup]
    exact OpenCommand.ofVerb_headed (by rw [hk]; decide)
  rw [hheaded] at hopens
  exact ⟨_,{ q with tokenizer := t, phase := .inCommand (.unheaded o settings v) },hverb,hstands,
    ⟨rfl,rfl,rfl,htakes.left_eq.trans List.drop_left,htakes.previous_eq,htakes.calm⟩,
    read_goesOn hnext hopens⟩

end Opening

section Lines

variable {σ : Type} {o : Options σ} {settings : Settings} {sub : Option History.Substitution}
  {v y z rest : Text}

namespace Parser

variable {p q : Parser σ}

theorem Opens.within (hp : Opens o settings v rest p) :
    p.phase.Within (.unheaded o settings v) :=
  hp.phase_eq ▸ .inCommand _

theorem Opens.beside (hp : Opens o settings v rest p) (hq : Opens o settings v rest q) :
    p.Beside o.history q := by
  have hhistory : (OpenCommand.unheaded o settings v).options.history = o.history := by
    obtain ⟨_,_,-,hc⟩ := OpenCommand.unheaded_spec o settings v
    rw [hc]
    rfl
  have hself (c : OpenCommand σ) (hc : c.options.history = o.history) : c.Follows o.history c :=
    ⟨by rw [← hc],rfl,rfl⟩
  refine ⟨⟨?_,hq.settings_eq.trans hp.settings_eq.symm,?_⟩,
    ⟨hq.rest_eq.trans hp.rest_eq.symm,hq.previous_eq.trans hp.previous_eq.symm,hp.calm,hq.calm⟩,
    congrArg Options.history hp.options_eq,?_⟩
  · rw [hq.options_eq,hp.options_eq]
  · rw [hp.phase_eq,hq.phase_eq]
    exact .inCommand (hself _ hhistory)
  · rw [hp.phase_eq]
    rintro _ ⟨⟩
    exact hhistory

theorem Opens.arguments (hp : Opens o settings v rest p)
    (hblank : ∀ c ∈ rest.head?, Text.isBlank c = true)
    (hmarks : ∀ c ∈ rest, isQuotingMark c = false) {tokens : List Token} {p' : Parser σ}
    {d : OpenCommand σ} {operator : Option Operator}
    (h : Reads p tokens (some (d,operator)) p') :
    Token.AreArguments d.command.tokens ∧ d.command.kind ≠ .expression ∧
      d.options.aliases = o.aliases := by
  obtain ⟨kind,grammar,hk,hc⟩ := OpenCommand.unheaded_spec o settings v
  have hphase := hp.phase_eq
  rw [hc] at hphase
  have hmild : p.tokenizer.Mild o.history := by
    refine ⟨hp.calm,hp.rest_eq ▸ hmarks,?_⟩
    rw [hp.previous_eq]
    decide
  obtain ⟨_,_,hout,hgrows⟩ := h.grows (hphase ▸ ParserPhase.Within.inCommand _)
  cases hout
  refine ⟨⟨h.bare hphase hk hmild,h.apart hphase hp.calm (hp.rest_eq ▸ hblank)⟩,?_,?_⟩
  · rw [hgrows.kind_eq]
    exact hk
  · rw [hgrows.options_eq]
    rfl

end Parser

/-- A line that begins with one name of a verb means what the line means that begins with another
name. -/
theorem parseLine_names (hv : v.IsLetters) (hy : y.IsLetters) (hz : z.IsLetters)
    (hny : o.Names v y) (hnz : o.Names v z) (hblank : ∀ c ∈ rest.head?, Text.isBlank c = true)
    (hmarks : ∀ c ∈ rest, isQuotingMark c = false) {parsed : ParsedLine} {w w' : σ}
    (h : parseLine (y ++ rest) o settings sub w = (.ok parsed,w')) :
    ∃ parsed', parseLine (z ++ rest) o settings sub w = (.ok parsed',w') ∧
      CommandTree.mapOpt Command.bare parsed'.tree =
        CommandTree.mapOpt Command.bare parsed.tree := by
  have hmark : '!' ∉ rest := fun hmem => absurd (hmarks _ hmem) (by decide)
  obtain ⟨a,p,rfl,ha,hp,hpread⟩ := Parser.opens settings sub hny hv hy hblank hmark
  obtain ⟨b,q,rfl,hb,hq,hqread⟩ := Parser.opens settings sub hnz hv hz hblank hmark
  obtain ⟨links,t,hcommands,-⟩ := parseLine_ok h
  obtain ⟨tokens,cs,hline⟩ := Parser.readsLine_of_commands hcommands
  obtain ⟨d,d',operator,cs,ds,_,_,_,u,rfl,hreads,hline',hfollows,hlinks⟩ :=
    hline.beside_headed hpread hqread hp.within (hp.beside hq)
  obtain ⟨hargs,hk,haliases⟩ := hp.arguments hblank hmarks hreads
  obtain ⟨args,globArgs,hcompile⟩ := OpenCommand.compile_headed hargs hk hv
  rw [haliases] at hcompile
  have hfirst : Command.bare <$> (d'.headed b).command.compile d'.options =
      Command.bare <$> (d.headed a).command.compile d.options := by
    refine (hfollows.headed b).bare_compile.trans ?_
    show Command.bare <$> (d.headed b).command.compile d.options = _
    rw [hcompile a hy ha,hcompile b hz hb]
    rfl
  refine parseLine_bare_congr hline hline' ?_ h
  rw [Parser.bare_compileAll_cons,Parser.bare_compileAll_cons,hlinks.bare_compileAll]
  exact congrArg (· >>= _) hfirst

end Lines

/-- An alias for a verb behaves like the verb. In a line without quotes, backslashes, grave accents,
references and exclamation marks behind it, the two are exchanged without a change but in the
tokens: either both lines are refused, or their trees correspond, command by command. -/
theorem parseLine_alias_verb {σ : Type} {o : Options σ} (settings : Settings)
    (sub : Option History.Substitution) {x v rest template : Text} (hx : x.IsLetters)
    (hv : v.IsLetters) (hexpand : o.expandAliases = true)
    (hx' : o.aliases.get? x = some template) (htemplate : Alias.StandsFor v template)
    (hv' : o.aliases.get? v = none) (hblank : ∀ c ∈ rest.head?, Text.isBlank c = true)
    (hmarks : ∀ c ∈ rest, isQuotingMark c = false) (w : σ) :
    (∃ e e', (parseLine (x ++ rest) o settings sub w).1 = .error e ∧
        (parseLine (v ++ rest) o settings sub w).1 = .error e') ∨
      ∃ parsed parsed' w', parseLine (x ++ rest) o settings sub w = (.ok parsed,w') ∧
        parseLine (v ++ rest) o settings sub w = (.ok parsed',w') ∧
        CommandTree.CorrespondsOpt (fun c d => c.bare = d.bare) parsed.tree parsed'.tree := by
  have hnx : o.Names v x := .expanded hexpand hx' htemplate
  have hnv : o.Names v v := .verb hv'
  rcases hparse : parseLine (x ++ rest) o settings sub w with ⟨e | parsed,w'⟩
  · rcases hparse' : parseLine (v ++ rest) o settings sub w with ⟨e' | parsed',w'⟩
    · exact .inl ⟨e,e',rfl,rfl⟩
    · obtain ⟨_,h,-⟩ := parseLine_names hv hv hx hnv hnx hblank hmarks hparse'
      cases hparse.symm.trans h
  · obtain ⟨parsed',hparse',htree⟩ := parseLine_names hv hx hv hnx hnv hblank hmarks hparse
    exact .inr ⟨parsed,parsed',w',rfl,hparse',
      CommandTree.correspondsOpt_of_map (fun _ _ h => h) htree.symm⟩

/-- A verb with one argument, by an alias that passes it on. -/
theorem parseLine_alias_verb_argument :
    ∃ parsed tree,
      parseLine ['x',' ','a'] ({ aliases := [(['x'],['s',' ','$','*'])] } : Options Unit)
          (fun _ => none) none () = (.ok parsed,()) ∧ parsed.tree = some tree ∧
        tree.command.verb = ['s'] ∧ tree.command.args = [['a']] := by
  let o : Options Unit := { aliases := [(['x'],['s',' ','$','*'])] }
  let c : OpenCommand Unit :=
    (OpenCommand.push ⟨.opened ⟨.word,['s'],.input,0,1,none⟩ .game,o⟩
      ⟨.blank,[' '],.input,1,2,none⟩).push ⟨.word,['a'],.input,2,3,none⟩
  let t₁ : Tokenizer := ⟨['s'],[' ','a'],[],some .word,none,false,false,['s']⟩
  let t₂ : Tokenizer := ⟨['s',' '],['a'],[],some .blank,none,false,false,['s',' ']⟩
  let t₃ : Tokenizer := ⟨['s',' ','a'],[],[],some .word,none,false,false,['s',' ','a']⟩
  have hreads : ∃ tokens p, (Parser.new ['s',' ','a'] o (fun _ => none) none).restart.Reads tokens
      (some (c,none)) p :=
    ⟨_,_,.goesOn (t := t₁) rfl rfl <| .goesOn (t := t₂) rfl rfl <| .goesOn (t := t₃) rfl rfl <|
      .ends (t := t₃) (c := some c) rfl rfl⟩
  obtain ⟨_,_,hreads⟩ := hreads
  have hparse := parseLine_last hreads.read_eq ()
  have hx : Text.IsLetters ['x'] := ⟨by decide,List.forall_mem_singleton.2 rfl⟩
  have hs : Text.IsLetters ['s'] := ⟨by decide,List.forall_mem_singleton.2 rfl⟩
  rcases @parseLine_alias_verb Unit o (fun _ => none) none ['x'] ['s'] [' ','a'] _ hx hs rfl rfl
      .words rfl (by rintro _ ⟨⟩; rfl) (by simp [isQuotingMark]) () with
    ⟨_,_,-,herror⟩ | ⟨parsed,parsed',_,hx,hs,hsame⟩
  · cases (congrArg Prod.fst hparse).symm.trans herror
  · cases hparse.symm.trans hs
    cases htree : parsed.tree with
    | none => rw [htree] at hsame; cases hsame
    | some tree =>
      rw [htree] at hsame
      cases tree with
      | node d operator conditions alternate successor =>
      obtain ⟨hbare,-⟩ := hsame
      have hcompiled : (c.command.compile c.options ()).1.verb = ['s'] ∧
          (c.command.compile c.options ()).1.args = [['a']] := by decide +kernel
      refine ⟨parsed,_,hx,htree,?_,?_⟩
      · exact (congrArg Command.verb hbare).trans hcompiled.1
      · exact (congrArg Command.args hbare).trans hcompiled.2

end Realm
