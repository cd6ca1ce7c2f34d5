import Realm.Proofs.Command.Covering

/-! The tokens of a whole line. History references split it into what is read of it directly and
what is read of the texts that they stand for: each reference is followed by the tokens of its
text, and without these the tokens make up the line. -/
namespace Realm

namespace Token

/-- Tokens that make up a text: they follow each other from its beginning to its end, and each of
them covers whole characters of it. -/
structure MakeUp (text : Text) (tokens : List Token) : Prop where
  tiles : Tiles 0 tokens (Text.byteSize text)
  isSome_slice : ∀ token ∈ tokens, (Text.slice? token.start token.stop text).isSome = true

/-- A token that is itself part of a text and not a reference to another. -/
def IsLexeme (token : Token) : Prop :=
  token.kind ≠ .history ∧ token.kind ≠ .substitution

/-- Tokens of a line in which each history reference is followed by the tokens that make up the
text that it stands for. -/
inductive Spliced : List Token → Prop
  | nil : Spliced []
  | lexeme {token : Token} {tokens : List Token} : token.source = .input → token.IsLexeme →
    Spliced tokens → Spliced (token :: tokens)
  | reference {token : Token} {run tokens : List Token} : token.source = .input →
    token.kind = .history → (∀ t ∈ run, t.source = .history ∧ t.IsLexeme) →
    MakeUp token.value run → Spliced tokens → Spliced (token :: (run ++ tokens))

end Token

namespace Tokenizer

open Token (Tiles MakeUp Spliced)

variable {σ : Type} {o : Options σ} {ctx : LexContext} {t t' : Tokenizer} {token : Token}
  {tokens : List Token}

section References

theorem historyTokens_tiles {previous : Option Token.Kind} {start : Nat} {before text : Text}
    (h : historyTokens o ctx previous start text = .ok tokens)
    (hstart : start = Text.byteSize before) :
    Tiles start tokens (Text.byteSize (before ++ text)) ∧
      ∀ token ∈ tokens, token.source = .history ∧ token.IsLexeme ∧
        (Text.slice? token.start token.stop (before ++ text)).isSome = true := by
  fun_induction historyTokens o ctx previous start text generalizing before tokens with
  | case1 =>
    cases h
    rw [List.append_nil]
    exact ⟨hstart,List.forall_mem_nil _⟩
  | case2 ctx previous start c text ih =>
    cases hscan : Lexeme.scan o ctx previous start c text with
    | error e => rw [hscan] at h; cases h
    | ok lexeme =>
      rw [hscan] at h
      simp only [bind,Except.bind] at h
      split at h
      · cases h
      next rest hrest =>
      cases h
      have hsplit := List.take_append_drop lexeme.width (c :: text)
      have hpiece : (c :: text).take lexeme.width ≠ [] := fun hnil =>
        (List.take_eq_nil_iff.1 hnil).elim (Nat.ne_of_gt lexeme.width_pos) (List.cons_ne_nil _ _)
      obtain ⟨htiles,hmore⟩ := @ih lexeme rest (before ++ (c :: text).take lexeme.width) hrest
        (by rw [hstart,Text.byteSize_append])
      rw [List.append_assoc,hsplit] at htiles hmore
      have hslice := Text.slice?_append before ((c :: text).take lexeme.width)
        ((c :: text).drop lexeme.width)
      rw [hsplit] at hslice
      subst hstart
      refine ⟨⟨rfl,Nat.lt_add_of_pos_right (Token.byteSize_pos hpiece),htiles⟩,?_⟩
      refine List.forall_mem_cons.2 ⟨⟨rfl,Lexeme.kind_of_scan hscan,?_⟩,hmore⟩
      rw [hslice]
      rfl

theorem historyTokens_makeUp {previous : Option Token.Kind} {text : Text}
    (h : historyTokens o ctx previous 0 text = .ok tokens) :
    MakeUp text tokens ∧ ∀ token ∈ tokens, token.source = .history ∧ token.IsLexeme := by
  obtain ⟨htiles,htokens⟩ := @historyTokens_tiles _ o ctx tokens previous 0 [] text h rfl
  exact ⟨⟨htiles,fun s hs => (htokens s hs).2.2⟩,
    fun s hs => ⟨(htokens s hs).1,(htokens s hs).2.1⟩⟩

end References

/-- A reader without tokens in waiting that reads to the end of its line and does not begin
afresh, with all tokens that it gives out. -/
inductive ReadsOn (o : Options σ) : Tokenizer → List Token → Prop
  | ended {t : Tokenizer} : t.rest = [] → ReadsOn o t []
  | passed {ctx : LexContext} {t u : Tokenizer} {c : Char} {rest piece : Text} {token : Token}
      {tokens : List Token} {previous : Option Token.Kind} : t.stack = [] → t.rest = c :: rest →
    t.dispatch o ctx c rest = (.ok token,u) → Passes t token piece u →
    ReadsOn o { u with stack := [], previous } tokens → ReadsOn o t (token :: (u.stack ++ tokens))

theorem readAll_ended (hn : t.next o ctx = (.ok none,t')) : t.readAll o ctx = .ok [] := by
  rw [readAll]
  split
  · next h => rw [hn] at h; cases h
  · rfl
  · next h => rw [hn] at h; cases h

theorem readAll_given (hn : t.next o ctx = (.ok (some token),t')) :
    t.readAll o ctx = (t'.readAll o (ctx.after token)).map (token :: ·) := by
  rw [readAll]
  split
  · next h => rw [hn] at h; cases h
  · next h => rw [hn] at h; cases h
  · next h => rw [hn] at h; cases h; rfl

theorem readAll_failed {e : Error} (hn : t.next o ctx = (.error e,t')) :
    t.readAll o ctx = .error e := by
  rw [readAll]
  split
  · next h => rw [hn] at h; cases h; rfl
  · next h => rw [hn] at h; cases h
  · next h => rw [hn] at h; cases h

theorem readAll_cons (h : t.readAll o ctx = .ok tokens)
    (hn : t.next o ctx = (.ok (some token),t')) :
    ∃ more, tokens = token :: more ∧ t'.readAll o (ctx.after token) = .ok more := by
  rw [readAll_given hn] at h
  cases hmore : t'.readAll o (ctx.after token) with
  | error e => rw [hmore] at h; cases h
  | ok more => rw [hmore] at h; cases h; exact ⟨more,rfl,rfl⟩

theorem readAll_stack (h : t.readAll o ctx = .ok tokens) :
    ∃ more ctx' previous, tokens = t.stack ++ more ∧
      readAll o ctx' { t with stack := [], previous } = .ok more := by
  generalize hs : t.stack = stack
  induction stack generalizing t ctx tokens with
  | nil =>
    have ht : { t with stack := [] } = t := by rw [← hs]
    exact ⟨tokens,ctx,t.previous,rfl,by rw [ht]; exact h⟩
  | cons token stack ih =>
    obtain ⟨rest,rfl,hrest⟩ := readAll_cons h (next_stack hs)
    obtain ⟨more,ctx',previous,rfl,hmore⟩ := ih hrest rfl
    exact ⟨more,ctx',previous,rfl,hmore⟩

section Dispatch

variable {c : Char} {rest : Text}

theorem dispatch_history (h : t.dispatch o ctx c rest = (.ok token,t'))
    (hkind : token.kind = .history) :
    c = '!' ∧ allowsReference o (Text.isAllBlank t.before) = true := by
  unfold dispatch at h
  split at h
  · split at h <;> cases h
    cases hkind
  · split at h
    · next hmark =>
      unfold readMark at h
      dsimp only at h
      split at h
      · cases h
        cases hkind
      · next hallows =>
        split at h
        · cases h
        · split at h <;> cases h
          exact ⟨hmark.1,by simp_all⟩
    · split at h
      · cases h
      · next hscan =>
        cases h
        exact absurd hkind (Lexeme.kind_of_scan hscan).1

/-- A token that comes of the next character is part of the line, or a reference with the tokens
of its text in waiting. -/
theorem dispatch_spliced (hs : t.stack = []) (h : t.dispatch o ctx c rest = (.ok token,t'))
    (hkind : token.kind ≠ .substitution) :
    token.source = .input ∧ (token.IsLexeme ∧ t'.stack = [] ∨
      token.kind = .history ∧ MakeUp token.value t'.stack ∧
        ∀ s ∈ t'.stack, s.source = .history ∧ s.IsLexeme) := by
  cases dispatched h with
  | replaced => exact absurd rfl hkind
  | marked => exact ⟨rfl,.inl ⟨⟨(fun heq => by cases heq),fun heq => by cases heq⟩,hs⟩⟩
  | referred _ _ htokens => exact ⟨rfl,.inr ⟨rfl,historyTokens_makeUp htokens⟩⟩
  | scanned hscan => exact ⟨rfl,.inl ⟨Lexeme.kind_of_scan hscan,hs⟩⟩

end Dispatch

/-- All tokens of a line come without beginning afresh, or of the line that a quick substitution
at its very beginning stands for. -/
theorem readAll_readsOn (hs : t.stack = []) (h : t.readAll o ctx = .ok tokens) :
    ReadsOn o t tokens ∨
      ∃ line sub body previous, t.restarted = false ∧ t.before = [] ∧ o.historyLevel = .full ∧
        History.quickSubstitute t.source o.history = .ok (line,sub) ∧
        tokens = (t.restart line sub).1 :: body ∧
        ReadsOn o { (t.restart line sub).2 with previous } body := by
  induction hn : tokens.length using Nat.strongRecOn generalizing t ctx tokens with
  | _ n ih =>
    cases hr : t.rest with
    | nil =>
      rw [readAll_ended (next_none hs hr)] at h
      cases h
      exact .inl (.ended hr)
    | cons c rest =>
      rcases hd : t.dispatch o ctx c rest with ⟨e | token,u⟩
      · rw [readAll_failed (next_error hs hr hd)] at h
        cases h
      · obtain ⟨more,rfl,hmore⟩ := readAll_cons h (next_dispatch hs hr hd)
        obtain ⟨body,ctx',previous,rfl,hbody⟩ := readAll_stack hmore
        have hlength : body.length < n := by
          rw [← hn,List.length_cons,List.length_append]
          omega
        have hreads := ih _ hlength rfl hbody rfl
        rcases (dispatched hd).passes_or_restarts hr with ⟨piece,hpasses⟩ | hrestarts
        · -- A reader that has passed over something does not begin afresh.
          rcases hreads with hreads | ⟨line,sub,-,-,-,hbefore,-⟩
          · exact .inl (@ReadsOn.passed _ o ctx t u c rest piece token _ _ hs hr hd hpasses hreads)
          · have hbefore : u.before = [] := hbefore
            rw [hpasses.before_eq] at hbefore
            exact absurd (List.append_eq_nil_iff.1 hbefore).2 hpasses.piece_ne
        · cases dispatched hd with
          | @replaced line sub hwhen hquick =>
            obtain ⟨-,hbefore,-,hfirst,hlevel,-⟩ := hwhen
            -- Neither does one that has begun afresh.
            rcases hreads with hreads | ⟨_,_,_,_,hfirst,-⟩
            · have hstack : (t.restart line sub).2.stack = [] := hs
              rw [hstack,List.nil_append]
              refine .inr ⟨line,sub,body,previous,hfirst,hbefore,hlevel,hquick,rfl,?_⟩
              rw [← hstack] at hreads
              exact hreads
            · cases hfirst
          | marked => cases hrestarts.kind_eq
          | referred => cases hrestarts.kind_eq
          | scanned hscan => exact absurd hrestarts.kind_eq (Lexeme.kind_of_scan hscan).2

section Tokens

theorem ReadsOn.spliced (h : ReadsOn o t tokens) : Spliced tokens := by
  induction h with
  | ended => exact .nil
  | passed hs hr hd hpasses _ ih =>
    obtain ⟨hsource,⟨hlexeme,hstack⟩ | ⟨hkind,hmakeUp,hrun⟩⟩ :=
      dispatch_spliced hs hd hpasses.kind_ne
    · rw [hstack]
      exact .lexeme hsource hlexeme ih
    · exact .reference hsource hkind hrun hmakeUp ih

/-- The tokens that are read from the line itself make up what is left of it. -/
theorem ReadsOn.tiles (h : ReadsOn o t tokens) :
    Tiles t.index (tokens.filter (·.source = .input)) (Text.byteSize t.source) ∧
      ∀ token ∈ tokens.filter (·.source = .input),
        (Text.slice? token.start token.stop t.source).isSome = true := by
  induction h with
  | @ended t hr =>
    refine ⟨?_,List.forall_mem_nil _⟩
    rw [source,hr,List.append_nil]
    rfl
  | @passed ctx t u c rest piece token tokens previous hs hr hd hpasses _ ih =>
    obtain ⟨hsource,hrun⟩ := dispatch_spliced hs hd hpasses.kind_ne
    have hnone : u.stack.filter (·.source = .input) = [] := by
      rcases hrun with ⟨-,hstack⟩ | ⟨-,-,hrun⟩
      · rw [hstack]
        rfl
      · refine List.filter_eq_nil_iff.2 fun s hmem => ?_
        rw [(hrun s hmem).1]
        decide
    rw [List.filter_cons_of_pos (by rw [hsource]; rfl),List.filter_append,hnone,List.nil_append]
    obtain ⟨hwhole,hstart,hlt,hstop⟩ := hpasses.offsets
    obtain ⟨htiles,hslices⟩ := ih
    have htiles : Tiles u.index _ (Text.byteSize u.source) := htiles
    have hslices : ∀ (s : Token), s ∈ _ →
        (Text.slice? s.start s.stop u.source).isSome = true := hslices
    rw [hwhole] at htiles hslices
    rw [← hstop] at htiles hlt
    refine ⟨⟨hstart,hlt,htiles⟩,List.forall_mem_cons.2 ⟨?_,hslices⟩⟩
    have hslice := Text.slice?_append t.before piece u.rest
    rw [← hpasses.rest_eq] at hslice
    rw [hpasses.start_eq,hpasses.stop_eq,index,source,hslice]
    rfl

theorem ReadsOn.unreferred (h : ReadsOn o t tokens) (ho : o.historyEnabled = false) :
    ∀ token ∈ tokens, token.kind ≠ .history := by
  induction h with
  | ended => exact List.forall_mem_nil _
  | passed hs hr hd hpasses _ ih =>
    have hkind : _ ≠ Token.Kind.history := fun hk => by
      have hallows := (dispatch_history hd hk).2
      rw [allowsReference,ho] at hallows
      cases hallows
    obtain ⟨-,⟨-,hstack⟩ | ⟨hhistory,-⟩⟩ := dispatch_spliced hs hd hpasses.kind_ne
    · rw [hstack]
      exact List.forall_mem_cons.2 ⟨hkind,ih⟩
    · exact absurd hhistory hkind

@[simp] theorem isAllBlank_append {a b : Text} :
    Text.isAllBlank (a ++ b) = (Text.isAllBlank a && Text.isAllBlank b) :=
  List.all_append

/-- Where references may only stand at the beginning of the line there is one at most, and only
blanks are before it. -/
theorem ReadsOn.atLineStart (h : ReadsOn o t tokens) (ho : o.historyLevel = .lineStart) :
    (tokens.filter (·.kind = .history)).length ≤ (if Text.isAllBlank t.before then 1 else 0) ∧
      ∀ token ∈ tokens, token.kind = .history → ∃ blanks,
        Text.slice? 0 token.start t.source = some blanks ∧ Text.isAllBlank blanks = true := by
  induction h with
  | ended => exact ⟨Nat.zero_le _,List.forall_mem_nil _⟩
  | @passed ctx t u c rest piece token tokens previous hs hr hd hpasses _ ih =>
    obtain ⟨hcount,hblanks⟩ := ih
    have hcount : _ ≤ if Text.isAllBlank u.before then 1 else 0 := hcount
    have hblanks : ∀ s ∈ tokens, s.kind = .history → ∃ blanks,
        Text.slice? 0 s.start u.source = some blanks ∧ Text.isAllBlank blanks = true := hblanks
    obtain ⟨hwhole,hstart,-,-⟩ := hpasses.offsets
    rw [hpasses.before_eq,isAllBlank_append] at hcount
    rw [hwhole] at hblanks
    obtain ⟨-,⟨⟨hkind,-⟩,hstack⟩ | ⟨hkind,-,hrun⟩⟩ := dispatch_spliced hs hd hpasses.kind_ne
    · rw [hstack,List.nil_append,List.filter_cons_of_neg (by simpa using hkind)]
      refine ⟨Nat.le_trans hcount ?_,List.forall_mem_cons.2 ⟨fun hk => absurd hk hkind,hblanks⟩⟩
      cases Text.isAllBlank t.before
      · exact Nat.le_refl _
      · cases Text.isAllBlank piece <;> decide
    · obtain ⟨hmark,hallows⟩ := dispatch_history hd hkind
      have hblank : Text.isAllBlank t.before = true := by
        rw [allowsReference,ho,Bool.and_eq_true] at hallows
        exact hallows.2
      have hmarked : Text.isAllBlank piece = false := by
        have hpiece := hpasses.rest_eq
        rw [hr,hmark] at hpiece
        obtain ⟨d,piece,rfl⟩ := List.exists_cons_of_ne_nil hpasses.piece_ne
        rw [← (List.cons.inj hpiece).1]
        rfl
      have hnone : u.stack.filter (·.kind = .history) = [] := by
        refine List.filter_eq_nil_iff.2 fun s hmem => ?_
        simpa using (hrun s hmem).2.1
      rw [hblank,hmarked] at hcount
      rw [List.filter_cons_of_pos (by simpa using hkind),List.filter_append,hnone,List.nil_append,
        hblank]
      refine ⟨Nat.succ_le_succ hcount,List.forall_mem_cons.2 ⟨fun _ => ⟨t.before,?_,hblank⟩,?_⟩⟩
      · have hslice := Text.slice?_append [] t.before t.rest
        rw [List.nil_append,Text.byteSize_nil,Nat.zero_add] at hslice
        rw [hstart,index,source,hslice]
      · exact List.forall_mem_append.2 ⟨fun s hmem hk => absurd hk (hrun s hmem).2.1,hblanks⟩

end Tokens

end Tokenizer

/-- The tokens of a line in full. After a quick substitution they are those of the line that it
stands for. Each history reference is followed by tokens of its text, which make it up from its
beginning to its end, are nowhere else, and bring in nothing further; and the tokens that are left
without them make up the line. Where no reference may be expanded there is none, and where
references may only stand at the beginning of the line there is one at most, with blanks before
it. -/
theorem tokenize_spliced {σ : Type} (o : Options σ) (line : Text) {tokens : List Token}
    (h : tokenize o line = .ok tokens) :
    ∃ source body,
      (source = line ∧ tokens = body ∨ o.historyLevel = .full ∧
        (∃ sub, History.quickSubstitute line o.history = .ok (source,sub)) ∧
        tokens = ⟨.substitution,source,.input,0,0,none⟩ :: body) ∧
      Token.Spliced body ∧ Token.MakeUp source (body.filter (·.source = .input)) ∧
      (o.historyLevel = .off ∨ o.history = [] → ∀ token ∈ tokens, token.kind ≠ .history) ∧
      (o.historyLevel = .lineStart → (tokens.filter (·.kind = .history)).length ≤ 1 ∧
        ∀ token ∈ tokens, token.kind = .history → ∃ blanks,
          Text.slice? 0 token.start source = some blanks ∧ Text.isAllBlank blanks = true) := by
  have hdisabled (ho : o.historyLevel = .off ∨ o.history = []) : o.historyEnabled = false := by
    rcases ho with ho | ho <;> simp [Options.historyEnabled,ho]
  rcases Tokenizer.readAll_readsOn rfl h with
    hreads | ⟨source,sub,body,previous,-,-,hlevel,hsub,rfl,hreads⟩
  · exact ⟨line,tokens,.inl ⟨rfl,rfl⟩,hreads.spliced,⟨hreads.tiles.1,hreads.tiles.2⟩,
      fun ho => hreads.unreferred (hdisabled ho),hreads.atLineStart⟩
  · refine ⟨source,body,.inr ⟨hlevel,⟨sub,hsub⟩,rfl⟩,hreads.spliced,
      ⟨hreads.tiles.1,hreads.tiles.2⟩,?_,?_⟩
    · refine fun ho => List.forall_mem_cons.2 ⟨?_,hreads.unreferred (hdisabled ho)⟩
      exact fun heq => by cases heq
    · intro ho
      rw [hlevel] at ho
      cases ho

/-- After the line `=`, the line `!!` is a reference, which is followed by the one token of the
remembered line. -/
theorem tokenize_spliced_previous :
    tokenize { expandAliases := false, history := [['=']] : Options Unit } ['!','!'] =
        .ok [⟨.history,['='],.input,0,2,none⟩,⟨.word,['='],.history,0,1,none⟩] ∧
      Token.Spliced [⟨.history,['='],.input,0,2,none⟩,⟨.word,['='],.history,0,1,none⟩] := by
  let o : Options Unit := { expandAliases := false, history := [['=']] }
  let reference : Token := ⟨.history,['='],.input,0,2,none⟩
  let sign : Token := ⟨.word,['='],.history,0,1,none⟩
  let t₁ : Tokenizer := ⟨['!','!'],[],[sign],none,none,false,false,['=']⟩
  have hmodifiers : History.applyModifiers ['!'] ⟨['='],false,none,none⟩ [] =
      .ok (⟨['='],false,none,none⟩,[]) := by
    rw [History.applyModifiers]
    intro _ heq
    cases heq
  have hlast : o.history.getLast? = some ['='] := rfl
  have hresolve : History.resolve o.history none ['!','!'] =
      .ok ⟨['='],['!','!'],false,none⟩ := by
    simp only [History.resolve,History.resolveAfterMark,List.drop_succ_cons,List.drop_zero,
      History.Event.read?,History.Event.find?,hlast,History.designatedWords,
      History.writtenDesignator?,hmodifiers]
    rfl
  have hscan : Lexeme.scan { o with historyLevel := .off } {} none 0 '=' [] =
      .ok (Lexeme.single .word '=') := rfl
  have hsigns : Tokenizer.historyTokens { o with historyLevel := .off } {} none 0 ['='] =
      .ok [sign] := by
    have hnone (ctx : LexContext) (previous : Option Token.Kind) (start : Nat) :
        Tokenizer.historyTokens { o with historyLevel := .off } ctx previous start [] =
          .ok [] := by
      rw [Tokenizer.historyTokens]
    rw [Tokenizer.historyTokens,hscan]
    show Except.bind (Tokenizer.historyTokens _ _ _ _ []) (fun tokens => .ok (sign :: tokens)) = _
    rw [hnone]
    rfl
  have hdispatch : (Tokenizer.new ['!','!'] none).dispatch o {} '!' ['!'] =
      (.ok reference,t₁) := by
    show Tokenizer.readMark o {} (Tokenizer.new ['!','!'] none) ['!'] = _
    have hmeant : (!Tokenizer.allowsReference o true || Tokenizer.isLiteralMark true ['!']) =
        false := rfl
    have hline : Text.isAllBlank (Tokenizer.new ['!','!'] none).before = true := rfl
    have hrest : History.resolve o.history (Tokenizer.new ['!','!'] none).lastSubstitution
        (Tokenizer.new ['!','!'] none).rest = .ok ⟨['='],['!','!'],false,none⟩ := hresolve
    simp only [Tokenizer.readMark,hline,hmeant,hrest,hsigns,Bool.false_eq_true,if_false]
    rfl
  have hgiven : (Tokenizer.new ['!','!'] none).readAll o {} = .ok [reference,sign] := by
    rw [Tokenizer.readAll_given (Tokenizer.next_dispatch rfl rfl hdispatch),
      Tokenizer.readAll_given (Tokenizer.next_stack rfl),
      Tokenizer.readAll_ended (Tokenizer.next_none rfl rfl)]
    rfl
  obtain ⟨source,body,hsource,hspliced,-⟩ := tokenize_spliced o ['!','!'] hgiven
  rcases hsource with ⟨rfl,rfl⟩ | ⟨-,-,hbody⟩
  · exact ⟨hgiven,hspliced⟩
  · have hkinds : Token.Kind.history = .substitution :=
      congrArg Token.kind (List.cons.inj hbody).1
    cases hkinds

end Realm
