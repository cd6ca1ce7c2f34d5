import Realm.Expansion
import Realm.Proofs.Command.Composition
import Realm.Proofs.Command.Covering
import Realm.Proofs.Command.Variables
import Realm.Proofs.Table

/-! Quoted text and file expressions. Of the marks that make a file expression, those of a string
are not seen when words are put together from tokens; an alias, whose line is made of texts and
cut into words once more, has forgotten which of them were quoted. -/
namespace Realm

section Marks

variable {s t : Text}

theorem hasGlob_append (s t : Text) : hasGlob (s ++ t) = (hasGlob s || hasGlob t) :=
  List.any_append

theorem hasGlob_eq_false_iff : hasGlob t = false ↔ ∀ c ∈ t, hasGlob [c] = false := by
  simp [hasGlob]

theorem hasGlob_of_subset (h : s ⊆ t) (ht : hasGlob t = false) : hasGlob s = false :=
  hasGlob_eq_false_iff.2 fun c hc => hasGlob_eq_false_iff.1 ht c (h hc)

theorem hasGlob_flatten {ts : List Text} (h : ∀ t ∈ ts, hasGlob t = false) :
    hasGlob ts.flatten = false := by
  refine hasGlob_eq_false_iff.2 fun c hc => ?_
  obtain ⟨t,ht,hc⟩ := List.mem_flatten.1 hc
  exact hasGlob_eq_false_iff.1 (h t ht) c hc

theorem hasGlob_join {separator : Text} {ts : List Text} (hs : hasGlob separator = false)
    (h : ∀ t ∈ ts, hasGlob t = false) : hasGlob (Text.join separator ts) = false := by
  induction ts with
  | nil => rfl
  | cons t ts ih =>
    obtain ⟨ht,hts⟩ := List.forall_mem_cons.1 h
    cases ts with
    | nil => exact (congrArg hasGlob List.intercalate_singleton).trans ht
    | cons u us =>
      rw [Text.join,List.intercalate_cons_cons,hasGlob_append,hasGlob_append,ht,hs]
      exact ih hts

theorem Text.subset_of_mem_words {x : Text} (h : x ∈ words t) : x ⊆ t :=
  subset_of_mem_splitWhere (List.mem_filter.1 h).1

end Marks

section Tokens

variable {σ : Type} {o : Options σ} {ctx : LexContext} {t u : Tokenizer} {token : Token}

/-- A token that no history reference has brought in is a piece of the line, and its value is made
of characters of it. -/
theorem Tokenizer.next_piece (hn : t.next o ctx = (.ok (some token),u)) (ht : t.stack = [])
    (hh : token.kind ≠ .history) (hs : token.kind ≠ .substitution) :
    u.stack = [] ∧ ∃ piece, t.Passes token piece u ∧ token.value ⊆ piece := by
  rcases next_cases hn with ⟨hstack,-⟩ | ⟨c,rest,v,-,hr,hd,rfl⟩
  · rw [ht] at hstack
    cases hstack
  · cases hd with
    | replaced => exact absurd rfl hs
    | referred => exact absurd rfl hh
    | marked hc =>
      have hpiece : t.rest.take 1 = ['!'] := by rw [hr,hc]; rfl
      have hpasses : t.Passes (t.token .word ['!'] 1) (t.rest.take 1) (t.skip 1 ['!']) :=
        passes_skip hr Nat.one_pos hs hpiece.symm
      exact ⟨ht,_,hpasses.given _,by rw [hpiece]; exact List.Subset.refl _⟩
    | @scanned lexeme hscan =>
      have hvalue := (Lexeme.scan_lies hscan).value_subset
      rw [← hr] at hvalue
      have hpasses : t.Passes (t.token lexeme.kind lexeme.value lexeme.width)
          (t.rest.take lexeme.width) (t.skip lexeme.width (t.rest.take lexeme.width)) :=
        passes_skip hr lexeme.width_pos hs (if_neg hh).symm
      exact ⟨ht,_,hpasses.given _,hvalue⟩

/-- A token over a piece of a line, with a value made of characters of it. -/
def Token.Covers (line : Text) (token : Token) : Prop :=
  ∃ before piece after, line = before ++ (piece ++ after) ∧ token.start = Text.byteSize before ∧
    token.stop = token.start + Text.byteSize piece ∧ token.value ⊆ piece

theorem Tokenizer.Runs.pieces {tokens : List Token} (h : t.Runs σ tokens u) (ht : t.stack = [])
    (hh : ∀ s ∈ tokens, s.kind ≠ .history ∧ s.kind ≠ .substitution) :
    Token.Tiles t.index tokens u.index ∧ ∀ s ∈ tokens, s.Covers t.source := by
  induction h with
  | nil => exact ⟨rfl,List.forall_mem_nil _⟩
  | @cons o ctx t u v token tokens hn _ ih =>
    obtain ⟨⟨hhistory,hsubstitution⟩,hmore⟩ := List.forall_mem_cons.1 hh
    obtain ⟨hu,piece,hpasses,hvalue⟩ := next_piece hn ht hhistory hsubstitution
    obtain ⟨hsource,hstart,hlt,hstop⟩ := hpasses.offsets
    obtain ⟨htiles,hcovers⟩ := ih hu hmore
    rw [hsource] at hcovers
    have hcover : token.Covers t.source := by
      refine ⟨t.before,piece,u.rest,?_,hpasses.start_eq,?_,hvalue⟩
      · rw [source,hpasses.rest_eq]
      · rw [hpasses.stop_eq,hpasses.start_eq]
    exact ⟨⟨hstart,hstop ▸ hlt,hstop ▸ htiles⟩,List.forall_mem_cons.2 ⟨hcover,hcovers⟩⟩

theorem Token.Tiles.start_le {a b : Nat} {tokens : List Token} (h : Tiles a tokens b) :
    ∀ s ∈ tokens, a ≤ s.start := by
  induction tokens generalizing a with
  | nil => exact List.forall_mem_nil _
  | cons token tokens ih =>
    obtain ⟨rfl,hlt,h⟩ := h
    exact List.forall_mem_cons.2 ⟨Nat.le_refl _,fun s hs =>
      Nat.le_of_lt (Nat.lt_of_lt_of_le hlt (ih h s hs))⟩

theorem Token.Tiles.eq_of_over {a b n : Nat} {tokens : List Token} (h : Tiles a tokens b)
    {s t : Token} (hs : s ∈ tokens) (ht : t ∈ tokens) (hsn : s.start ≤ n ∧ n < s.stop)
    (htn : t.start ≤ n ∧ n < t.stop) : s = t := by
  induction tokens generalizing a with
  | nil => cases hs
  | cons token tokens ih =>
    obtain ⟨-,-,h⟩ := h
    have hbeyond := h.start_le
    cases hs with
    | head =>
      cases ht with
      | head => rfl
      | tail _ ht =>
        have := hbeyond t ht
        omega
    | tail _ hs =>
      cases ht with
      | head =>
        have := hbeyond s hs
        omega
      | tail _ ht => exact ih h hs ht

/-- Every mark of a file expression in a line stands inside of a quoted string. -/
def Token.QuotesGlobs (line : Text) (tokens : List Token) : Prop :=
  ∀ i : Fin line.length, hasGlob [line.get i] = true → ∃ s ∈ tokens, s.kind = .string ∧
    s.start ≤ Text.byteSize (line.take i) ∧ Text.byteSize (line.take i) < s.stop

instance (line : Text) (tokens : List Token) : Decidable (Token.QuotesGlobs line tokens) :=
  inferInstanceAs (Decidable (∀ _, _))

def Token.IsUnmarked (t : Token) : Prop :=
  t.kind ≠ .string → hasGlob t.value = false

theorem Tokenizer.Runs.unmarked {line : Text} {sub : Option History.Substitution}
    {tokens : List Token} (h : (Tokenizer.new line sub).Runs σ tokens u)
    (hh : ∀ s ∈ tokens, s.kind ≠ .history ∧ s.kind ≠ .substitution)
    (hquotes : Token.QuotesGlobs line tokens) : ∀ s ∈ tokens, s.IsUnmarked := by
  obtain ⟨htiles,hcovers⟩ := h.pieces rfl hh
  intro s hs hk
  refine hasGlob_eq_false_iff.2 fun c hc => Bool.eq_false_iff.2 fun hmark => hk ?_
  obtain ⟨before,piece,after,hline,hstart,hstop,hvalue⟩ := hcovers s hs
  obtain ⟨front,back,rfl⟩ := List.append_of_mem (hvalue hc)
  have hsplit : line = (before ++ front) ++ c :: (back ++ after) := by
    rw [show line = _ from hline]
    simp
  have hlt : (before ++ front).length < line.length := by simp [hsplit]
  have hat : line.get ⟨_,hlt⟩ = c := by simp [hsplit]
  have htake : line.take (before ++ front).length = before ++ front := by
    rw [hsplit,List.take_left]
  obtain ⟨q,hq,hstring,hqn⟩ := hquotes ⟨_,hlt⟩ (hat.symm ▸ hmark)
  rw [show line.take _ = before ++ front from htake] at hqn
  have hsn : s.start ≤ Text.byteSize (before ++ front) ∧
      Text.byteSize (before ++ front) < s.stop := by
    have hpos := c.utf8Size_pos
    simp only [hstop,hstart,Text.byteSize_append,Text.byteSize_cons]
    omega
  rw [htiles.eq_of_over hs hq hsn hqn]
  exact hstring

end Tokens

section Words

variable {σ : Type} {o : Options σ} {tokens : List Token}

theorem Token.hasGlob_rawText {t : Token} (h : hasGlob t.value = false) :
    hasGlob t.rawText = false := by
  unfold rawText
  split
  · exact h
  · exact h
  · rw [← List.singleton_append,hasGlob_append,hasGlob_append,h]
    rfl
  · exact h

inductive Fragment.ComesOf (tokens : List Token) : Fragment → Prop
  | gap : ComesOf tokens .gap
  | whole {t : Token} : t ∈ tokens → t.kind ≠ .string → ComesOf tokens (.whole t.value)
  | plain {t : Token} : t ∈ tokens → t.kind ≠ .string → ComesOf tokens (.plain t.rawText)
  | quoted {t : Token} : t ∈ tokens → t.kind = .string → ComesOf tokens (.quoted t.value)
  | variable {t : Token} {members : List Token} {name : Text} : t ∈ tokens → t.kind ≠ .string →
      (∀ m ∈ members, m ∈ tokens ∧ m.kind = .member) →
    ComesOf tokens (.variable name (t.rawText ++ members.flatMap (·.rawText)))

theorem Fragment.ComesOf.mono {more : List Token} {f : Fragment} (h : f.ComesOf tokens)
    (hmore : tokens ⊆ more) : f.ComesOf more := by
  cases h with
  | gap => exact .gap
  | whole ht hk => exact .whole (hmore ht) hk
  | plain ht hk => exact .plain (hmore ht) hk
  | quoted ht hk => exact .quoted (hmore ht) hk
  | «variable» ht hk hm => exact .variable (hmore ht) hk fun m h => ⟨hmore (hm m h).1,(hm m h).2⟩

theorem Fragment.comesOf_ofTokens (isVerb : Bool) (tokens : List Token) :
    ∀ f ∈ ofTokens isVerb tokens, f.ComesOf tokens := by
  have hcons {t : Token} {ts us : List Token} {f : Fragment} (hus : us ⊆ ts)
      (hf : f.ComesOf (t :: ts)) (ih : ∀ f ∈ ofTokens false us, f.ComesOf us) :
      ∀ g ∈ f :: ofTokens false us, g.ComesOf (t :: ts) :=
    List.forall_mem_cons.2 ⟨hf,fun g hg => (ih g hg).mono (List.subset_cons_of_subset _ hus)⟩
  fun_induction ofTokens isVerb tokens with
  | case1 => exact List.forall_mem_nil _
  | case2 _ t ts hk ih => exact hcons (List.Subset.refl _) .gap ih
  | case3 _ t ts _ ih => exact fun g hg => (ih g hg).mono (List.subset_cons_self _ _)
  | case4 _ t ts _ ih => exact fun g hg => (ih g hg).mono (List.subset_cons_self _ _)
  | case5 _ t ts hk ih =>
    refine hcons (List.Subset.refl _) ?_ ih
    split
    · exact .gap
    · exact .whole (.head _) (by rw [hk]; decide)
  | case6 _ t ts hk ih =>
    refine hcons (List.Subset.refl _) ?_ ih
    split
    · exact .whole (.head _) (by rw [hk]; decide)
    · exact .plain (.head _) (by rw [hk]; decide)
  | case7 _ t ts hk members rest ih =>
    have hmembers : ∀ m ∈ members, m ∈ t :: ts ∧ m.kind = .member := fun m hm =>
      ⟨.tail _ ((List.takeWhile_sublist _).subset hm),
        of_decide_eq_true (List.all_eq_true.1 List.all_takeWhile m hm)⟩
    exact hcons (List.dropWhile_sublist _).subset
      (.variable (.head _) (by rw [hk]; decide) hmembers) ih
  | case8 _ t ts hk ih => exact hcons (List.Subset.refl _) (.quoted (.head _) hk) ih
  | case9 _ t ts hk ih | case10 _ t ts hk ih | case11 _ t ts hk ih | case12 _ t ts hk ih =>
    exact hcons (List.Subset.refl _) (.plain (.head _) (by rw [hk]; decide)) ih

/-- The word that a fragment makes, with the value of its variable at some moment. -/
inductive Fragment.Makes (o : Options σ) : Fragment → Word → Prop
  | whole {text : Text} : Makes o (.whole text) ⟨text,text,false⟩
  | plain {text : Text} : Makes o (.plain text) ⟨text,text,false⟩
  | quoted {text : Text} : Makes o (.quoted text) ⟨text,text,true⟩
  | replaced {name raw : Text} (w : σ) : Makes o (.variable name raw) ⟨(o.valueOf name w).1,raw,false⟩
  | kept {name raw : Text} : Makes o (.variable name raw) ⟨raw,raw,false⟩

def Word.join (v v' : Word) : Word :=
  ⟨v.text ++ v'.text,v.raw ++ v'.raw,v.isQuoted || v'.isQuoted⟩

/-- A property of what fragments make, and of words that are joined, is one of all words. -/
theorem Word.ofFragments_forall {P : Word → Prop} (hjoin : ∀ v v', P v → P v' → P (join v v'))
    {expand : Bool} {fragments : List Fragment} {current : Option Word}
    (hfragments : ∀ f ∈ fragments, ∀ v, f.Makes o v → P v) (hcurrent : ∀ v ∈ current, P v) (w : σ) :
    ∀ v ∈ (ofFragments o expand current fragments w).1, P v := by
  have hextend {current : Option Word} {v : Word} (hcurrent : ∀ v ∈ current, P v) (hv : P v) :
      ∀ v' ∈ extend current v.text v.raw v.isQuoted, P v' := by
    cases current with
    | none => rintro v' ⟨⟩; exact hv
    | some u => rintro v' ⟨⟩; exact hjoin u v (hcurrent u rfl) hv
  have hnone : ∀ v ∈ (none : Option Word), P v := nofun
  have hbegun {current : Option Word} (hcurrent : ∀ v ∈ current, P v) : ∀ v ∈ current.toList, P v :=
    fun v hv => hcurrent v (Option.mem_toList.1 hv)
  induction fragments generalizing current w with
  | nil =>
    rw [ofFragments]
    exact hbegun hcurrent
  | cons f fragments ih =>
    obtain ⟨hf,hmore⟩ := List.forall_mem_cons.1 hfragments
    cases f with
    | gap =>
      rw [ofFragments]
      exact List.forall_mem_append.2 ⟨hbegun hcurrent,ih hmore hnone w⟩
    | whole text =>
      rw [ofFragments]
      exact List.forall_mem_append.2 ⟨hbegun hcurrent,
        List.forall_mem_cons.2 ⟨hf _ .whole,ih hmore hnone w⟩⟩
    | plain text =>
      rw [ofFragments]
      exact ih hmore (hextend hcurrent (hf _ .plain)) w
    | quoted text =>
      rw [ofFragments]
      exact ih hmore (hextend hcurrent (hf _ .quoted)) w
    | «variable» name raw =>
      rw [ofFragments]
      cases expand with
      | true => exact ih hmore (hextend hcurrent (hf _ (.replaced w))) _
      | false => exact ih hmore (hextend hcurrent (hf _ .kept)) w

/-- Where only strings have marks, what was not quoted is written without any. -/
theorem Fragment.ComesOf.raw_unmarked {f : Fragment} {v : Word} (h : f.ComesOf tokens)
    (hmakes : f.Makes o v) (ht : ∀ t ∈ tokens, t.IsUnmarked)
    (hquoted : v.isQuoted = true → ∀ t ∈ tokens, hasGlob t.value = false) :
    hasGlob v.raw = false := by
  have hraw {t : Token} (h : t ∈ tokens) (hk : t.kind ≠ .string) : hasGlob t.rawText = false :=
    Token.hasGlob_rawText (ht t h hk)
  cases h with
  | gap => cases hmakes
  | whole h hk => cases hmakes; exact ht _ h hk
  | plain h hk => cases hmakes; exact hraw h hk
  | quoted h => cases hmakes; exact hquoted rfl _ h
  | @«variable» t members name h hk hm =>
    have hwritten : hasGlob (t.rawText ++ members.flatMap (·.rawText)) = false := by
      rw [hasGlob_append,hraw h hk]
      refine hasGlob_flatten (List.forall_mem_map.2 fun m hmember => ?_)
      obtain ⟨hmem,hmk⟩ := hm m hmember
      exact hraw hmem (by rw [hmk]; decide)
    cases hmakes <;> exact hwritten

theorem Word.ofTokens_raw (ht : ∀ t ∈ tokens, t.IsUnmarked) (expand : Bool) (w : σ) :
    ∀ v ∈ (ofTokens o expand tokens w).1, v.isQuoted = false → hasGlob v.raw = false := by
  refine ofFragments_forall ?_ ?_ nofun w
  · intro v v' hv hv' hquoted
    obtain ⟨hq,hq'⟩ := Bool.or_eq_false_iff.1 hquoted
    show hasGlob (v.raw ++ v'.raw) = false
    rw [hasGlob_append,hv hq,hv' hq']
    rfl
  · intro f hf v hmakes hquoted
    exact (Fragment.comesOf_ofTokens true tokens f hf).raw_unmarked hmakes ht
      fun hq => absurd hquoted (by rw [hq]; decide)

/-- Where neither tokens nor the values of variables have marks, no word has any. -/
theorem Word.ofTokens_text (ht : ∀ t ∈ tokens, hasGlob t.value = false)
    (hvalue : ∀ name w, hasGlob (o.valueOf name w).1 = false) (expand : Bool) (w : σ) :
    ∀ v ∈ (ofTokens o expand tokens w).1, hasGlob v.text = false := by
  refine ofFragments_forall ?_ ?_ nofun w
  · intro v v' hv hv'
    show hasGlob (v.text ++ v'.text) = false
    rw [hasGlob_append,hv,hv']
    rfl
  · intro f hf v hmakes
    have hraw := (Fragment.comesOf_ofTokens true tokens f hf).raw_unmarked hmakes
      (fun t h _ => ht t h) fun _ => ht
    cases hmakes with
    | whole | plain | quoted | kept => exact hraw
    | replaced w => exact hvalue _ w

end Words

section Aliases

namespace Alias

variable {σ : Type} {o : Options σ}

/-- What a piece has of the text of its template. -/
def Piece.text : Piece → Text
  | .char c => [c]
  | .variable name => name
  | .argument _ | .others => []

theorem reference?_subset {t rest : Text} {p : Piece} (h : reference? t = some (p,rest)) :
    p.text ⊆ t ∧ rest ⊆ t := by
  unfold reference? at h
  split at h
  · cases h
  · next c t =>
    split at h
    · cases h
      exact ⟨List.nil_subset _,
        List.subset_cons_of_subset _ (List.dropWhile_sublist _).subset⟩
    · split at h
      · cases h
        exact ⟨List.nil_subset _,List.subset_cons_self _ _⟩
      · split at h
        · cases h
          exact ⟨List.cons_subset_cons c (List.takeWhile_sublist _).subset,
            List.subset_cons_of_subset _ (List.dropWhile_sublist _).subset⟩
        · cases h

theorem text_subset_of_mem_pieces {template : Text} :
    ∀ p ∈ pieces template, p.text ⊆ template := by
  have hcons {c : Char} {t rest : Text} {p : Piece} (hp : p.text ⊆ c :: t) (hrest : rest ⊆ t)
      (ih : ∀ p ∈ pieces rest, p.text ⊆ rest) : ∀ q ∈ p :: pieces rest, q.text ⊆ c :: t :=
    List.forall_mem_cons.2 ⟨hp,fun q hq =>
      List.subset_cons_of_subset _ (List.Subset.trans (ih q hq) hrest)⟩
  have hchar (c : Char) (t : Text) : (Piece.char c).text ⊆ c :: t :=
    List.cons_subset.2 ⟨.head _,List.nil_subset _⟩
  fun_induction pieces template with
  | case1 => exact List.forall_mem_nil _
  | case2 t piece rest hreference ih =>
    obtain ⟨hpiece,hrest⟩ := reference?_subset hreference
    exact hcons (List.subset_cons_of_subset _ hpiece) hrest ih
  | case3 t _ ih => exact hcons (hchar '$' t) (List.Subset.refl t) ih
  | case4 c t _ ih => exact hcons (hchar c t) (List.Subset.refl t) ih

theorem hasGlob_numbered {name digits : Text} {args : List Text} (hname : hasGlob name = false)
    (hargs : ∀ arg ∈ args, hasGlob arg = false) : hasGlob (numbered name args digits) = false := by
  unfold numbered
  split
  · exact hname
  · next n _ =>
    cases hn : args[n]? with
    | none => rfl
    | some arg => exact hargs arg (List.mem_of_getElem? hn)
  · rfl

theorem subset_unnamed (ps : List Piece) (args : List Text) : unnamed ps args ⊆ args := by
  intro arg h
  obtain ⟨⟨x,n⟩,hx,h⟩ := List.mem_filterMap.1 h
  dsimp only at h
  split at h
  · cases h
  · cases h
    exact List.fst_mem_of_mem_zipIdx hx

/-- The line of an alias has no marks but those of its template, of the words behind it and of
variables. -/
theorem expand_unmarked {name template : Text} {args : List Text} (hname : hasGlob name = false)
    (htemplate : hasGlob template = false) (hargs : ∀ arg ∈ args, hasGlob arg = false)
    (hvalue : ∀ name w, hasGlob (o.valueOf name w).1 = false) (expandVariables : Bool) (w : σ) :
    hasGlob (expand o expandVariables name template args w).1 = false := by
  have hothers : hasGlob (Text.join [' '] (unnamed (pieces template) args)) = false :=
    hasGlob_join rfl fun arg h => hargs arg (subset_unnamed _ _ h)
  have hpiece : ∀ p ∈ pieces template, ∀ w, hasGlob
      (p.expand o expandVariables name args (unnamed (pieces template) args) w).1 = false := by
    intro p hp w
    have htext := hasGlob_of_subset (text_subset_of_mem_pieces p hp) htemplate
    cases p with
    | char c => exact htext
    | argument digits => exact hasGlob_numbered hname hargs
    | others => exact hothers
    | «variable» v =>
      rw [Piece.expand]
      split
      · exact hvalue v w
      · show hasGlob (['$'] ++ v) = false
        rw [hasGlob_append,show hasGlob v = false from htext]
        rfl
  rcases hm : (pieces template).mapM
    (Piece.expand o expandVariables name args (unnamed (pieces template) args)) w with ⟨parts,w₁⟩
  have hparts : hasGlob parts.flatten = false := by
    refine hasGlob_flatten fun t ht => ?_
    rw [show parts = _ from (congrArg Prod.fst hm).symm] at ht
    obtain ⟨p,hp,w',rfl⟩ := mem_mapM ht
    exact hpiece p hp w'
  rw [expand]
  simp only [bind,StateT.bind,hm]
  split
  · exact hparts
  · show hasGlob (parts.flatten ++ ([' '] ++ Text.join [' '] _)) = false
    rw [hasGlob_append,hasGlob_append,hparts,hothers]
    rfl

theorem subset_of_mem_splitLine {line arg : Text} (h : arg ∈ (splitLine line).2) : arg ⊆ line := by
  have htrim : Text.trimStart line ⊆ line := (List.dropWhile_sublist _).subset
  unfold splitLine at h
  dsimp only at h
  split at h <;>
    exact List.Subset.trans (Text.subset_of_mem_words h)
      (List.Subset.trans (List.dropWhile_sublist _).subset htrim)

end Alias

end Aliases

/-- What has to be free of marks besides, if a command is an alias: its strings, and the values of
variables. -/
def Command.IsClear {σ : Type} (o : Options σ) (c : Command) : Prop :=
  c.isAlias = true → (∀ t ∈ c.tokens, t.kind = .string → hasGlob t.value = false) ∧
    ∀ name w, hasGlob (o.valueOf name w).1 = false

section Commands

variable {σ : Type} {o : Options σ}

theorem Command.ofWords_globArgs {c : Command} (hc : c.globArgs = []) (findGlobs : Bool)
    {words : List Word} (h : ∀ v ∈ words, v.isQuoted = false → hasGlob v.raw = false) :
    (c.ofWords findGlobs words).globArgs = [] := by
  cases words with
  | nil => exact hc
  | cons first rest =>
    have hnone : placesOf (fun w : Word => !w.isQuoted && hasGlob w.raw) rest = [] := by
      refine placesOf_eq_nil fun v hv => ?_
      cases hq : v.isQuoted with
      | true => rfl
      | false => exact h v (.tail _ hv) hq
    rw [ofWords]
    split
    · rfl
    · exact (congrArg (fun places => if findGlobs then places else []) hnone).trans (ite_self _)

theorem Command.alias?_eq_some {c : Command} {name template : Text}
    (h : c.alias? o = some (name,template)) : c.isAlias = true ∧
      (∃ t ∈ c.tokens, t.kind = .alias ∧ t.value = name) ∧ o.aliases.get? name = some template := by
  unfold alias? at h
  unfold isAlias
  cases htokens : c.tokens with
  | nil => rw [htokens] at h; cases h
  | cons t tokens =>
    rw [htokens] at h
    dsimp only at h
    split at h
    · next hk =>
      obtain ⟨found,hfound,he⟩ := Option.map_eq_some_iff.1 h
      cases he
      exact ⟨decide_eq_true hk,⟨t,.head _,hk,rfl⟩,hfound⟩
    · cases h

theorem Command.compile_alias {c : Command} {name template : Text}
    (h : c.alias? o = some (name,template)) (hc : c.globArgs = []) (w : σ) :
    (c.compile o w).1.globArgs = [] ∨ ∃ first rest w',
      first :: rest = (Word.ofTokens o (o.expandVariables && !decide (c.kind = .expression))
        c.tokens w).1 ∧
      (c.compile o w).1.globArgs =
        if o.expandFileExpressions then placesOf hasGlob (Alias.splitLine (Alias.expand o
          (o.expandVariables && !decide (c.kind = .expression)) name template
          (rest.map (·.text)) w').1).2
        else [] := by
  rw [compile]
  simp only [bind,StateT.bind,h]
  rcases Word.ofTokens o (o.expandVariables && !decide (c.kind = .expression)) c.tokens w with
    ⟨_ | ⟨first,rest⟩,w₁⟩
  · exact .inl hc
  · exact .inr ⟨first,rest,w₁,rfl,rfl⟩

/-- A command with marks in its strings alone holds no file expression, if it is no alias or
nothing else brings one in. -/
theorem Command.compile_unmarked {c : Command} (hc : c.globArgs = [])
    (ht : ∀ t ∈ c.tokens, t.IsUnmarked)
    (haliases : ∀ name template, o.aliases.get? name = some template → hasGlob template = false)
    (hclear : c.IsClear o) (w : σ) : (c.compile o w).1.globArgs = [] := by
  cases halias : c.alias? o with
  | none =>
    rw [compile_fst o halias]
    exact ofWords_globArgs hc _ (Word.ofTokens_raw ht _ w)
  | some expansion =>
    obtain ⟨name,template⟩ := expansion
    obtain ⟨hisAlias,⟨t,htoken,hk,rfl⟩,hfound⟩ := alias?_eq_some halias
    obtain ⟨hstrings,hvalue⟩ := hclear hisAlias
    have hall : ∀ t ∈ c.tokens, hasGlob t.value = false := fun t h =>
      if hk : t.kind = .string then hstrings t h hk else ht t h hk
    rcases compile_alias halias hc w with hnone | ⟨first,rest,w',hwords,hplaces⟩
    · exact hnone
    · have htexts : ∀ arg ∈ rest.map (·.text), hasGlob arg = false :=
        List.forall_mem_map.2 fun v hv => Word.ofTokens_text hall hvalue _ w v
          (hwords ▸ List.mem_cons_of_mem first hv)
      have hline := Alias.expand_unmarked (hall t htoken) (haliases _ _ hfound) htexts hvalue
        (o.expandVariables && !decide (c.kind = .expression)) w'
      rw [hplaces,placesOf_eq_nil fun arg harg =>
        hasGlob_of_subset (Alias.subset_of_mem_splitLine harg) hline]
      exact ite_self _

/-- A command that is made of tokens without marks but in strings holds no file expression. -/
theorem OpenCommand.Drawn.unmarked {settings : Settings} {c : OpenCommand σ}
    (h : c.Drawn o settings Token.IsUnmarked)
    (haliases : ∀ name template, o.aliases.get? name = some template → hasGlob template = false)
    (hclear : c.command.IsClear o) (w : σ) : (c.command.compile c.options w).1.globArgs = [] := by
  obtain ⟨s,args,hs,-,hgrows,hdrawn⟩ := h
  obtain ⟨grammar,hgrammar,-⟩ := ofVerb_grammar o settings s
  have hoptions : c.options = o.forCommand grammar := hgrows.options_eq.trans hgrammar
  have hverb : (promote o s).IsUnmarked := by
    unfold promote
    split
    · next hpromoted =>
      have hk : s.kind ≠ .string := by
        simp only [Bool.and_eq_true,decide_eq_true_eq] at hpromoted
        rw [hpromoted.1.1]
        decide
      exact fun _ => hs hk
    · exact hs
  have htokens : ∀ t ∈ c.command.tokens, t.IsUnmarked := by
    rw [hdrawn.tokens_eq]
    refine List.forall_mem_cons.2 ⟨hverb,fun t ht => ?_⟩
    obtain ⟨u,hu,hbecomes⟩ := hdrawn.drawn t ht
    obtain ⟨hkind,hvalue⟩ := hbecomes.kind_eq
    unfold Token.IsUnmarked
    rw [hkind,hvalue]
    exact hu
  rw [hoptions]
  exact Command.compile_unmarked (o := o.forCommand grammar) hdrawn.globArgs_eq htokens haliases
    hclear w

end Commands

theorem Expansion.splice_eq_self {c : Command} (h : c.globArgs = [])
    (found : List (Text × List Text)) : splice found c = c := by
  have hargs : (c.args.zipIdx.flatMap fun x => [x.1]) = c.args := by
    rw [← List.map_eq_flatMap,List.zipIdx_map_fst]
  unfold splice
  simp only [h,List.not_mem_nil,if_false,hargs]
  rw [← h]

theorem Expansion.expand_eq_pure {ρ : Type} {tree : CommandTree}
    (h : ∀ part ∈ tree.parts, part.command.globArgs = []) (m : FileManager ρ)
    (identity cwd : Text) : expand m identity cwd tree = pure tree := by
  have hnone : tree.walk.flatMap patternsOf = [] := by
    refine List.flatMap_eq_nil_iff.2 fun c hc => ?_
    rw [CommandTree.walk_eq] at hc
    obtain ⟨part,hpart,rfl⟩ := List.mem_map.1 hc
    rw [patternsOf,h part hpart]
    rfl
  rw [expand,hnone]
  rfl

/-- Quoted text is no file expression. Where every mark of a line stands inside of a string, and
neither a history reference nor the template of an alias brings in another, a command holds no
file expression, and is left as it is when they are expanded: but an alias only if its strings
have no marks either, nor have the values of variables. -/
theorem parseLine_quotes_globs {σ : Type} {line : Text} {o : Options σ} {settings : Settings}
    {sub : Option History.Substitution} {parsed : ParsedLine} {tree : CommandTree}
    {tokens : List Token} {cs : List (OpenCommand σ × Option Operator)} {t : Tokenizer} {w w' : σ}
    (h : parseLine line o settings sub w = (.ok parsed,w')) (htree : parsed.tree = some tree)
    (hline : (Parser.new line o settings sub).ReadsLine tokens cs t)
    (hhistory : ∀ s ∈ tokens, s.kind ≠ .history ∧ s.kind ≠ .substitution)
    (hquotes : Token.QuotesGlobs line tokens)
    (haliases : ∀ name template, o.aliases.get? name = some template →
      hasGlob template = false) :
    (∀ part ∈ tree.parts, part.command.IsClear o → part.command.globArgs = [] ∧
      ∀ found, Expansion.splice found part.command = part.command) ∧
    ((∀ part ∈ tree.parts, part.command.IsClear o) →
      ∀ {ρ : Type} (m : FileManager ρ) (identity cwd : Text),
        Expansion.expand m identity cwd tree = pure tree) := by
  have hlink := hline.linked h
  rw [htree] at hlink
  have hcs := hline.drawn rfl (hline.runs.unmarked hhistory hquotes)
  have hlinks : ∀ l ∈ (Parser.compileAll cs w).1, l.1.IsClear o → l.1.globArgs = [] := by
    intro l hl hclear
    obtain ⟨c,hc,w',rfl⟩ := Parser.mem_compileAll hl
    refine (hcs c hc).unmarked haliases ?_ w'
    obtain ⟨verb,args,globArgs,hcompiled⟩ := Command.compile_keeps c.1.options c.1.command w'
    rw [show (c.1.command.compile c.1.options w').1 = _ from hcompiled] at hclear
    exact hclear
  have hparts : ∀ part ∈ tree.parts, part.command.IsClear o → part.command.globArgs = [] :=
    CommandTree.has_of_link (P := fun c _ => c.IsClear o → c.globArgs = [])
      (CommandTree.link_of_linkLine hlink) hlinks
  refine ⟨fun part hpart hclear => ?_,fun hall _ m identity cwd => ?_⟩
  · have hnone := hparts part hpart hclear
    exact ⟨hnone,Expansion.splice_eq_self hnone⟩
  · exact Expansion.expand_eq_pure (fun part hpart => hparts part hpart (hall part hpart)) m
      identity cwd

section QuotedMark

/-- A session that expands file expressions, with some aliases. -/
def globbing (aliases : Table Text Text) : Options Unit :=
  { expandFileExpressions := true, aliases }

/-- A verb, and a mark of a file expression in quotes. -/
def quotedMark : Text := ['x',' ','"','*','"']

def quotedMarkTokens : List Token :=
  [⟨.word,['x'],.input,0,1,none⟩,⟨.blank,[' '],.input,1,2,none⟩,⟨.string,['*'],.input,2,5,none⟩]

def quotedMarkCommand (aliases : Table Text Text) : OpenCommand Unit :=
  let verb := OpenCommand.ofVerb (globbing aliases) (fun _ => none) ⟨.word,['x'],.input,0,1,none⟩
  (verb.push ⟨.blank,[' '],.input,1,2,none⟩).push ⟨.string,['*'],.input,2,5,none⟩

theorem reads_quotedMark (aliases : Table Text Text) :
    ∃ p, (Parser.new quotedMark (globbing aliases) (fun _ => none) none).restart.Reads
      quotedMarkTokens (some (quotedMarkCommand aliases,none)) p := by
  let t₁ : Tokenizer := ⟨['x'],[' ','"','*','"'],[],some .word,none,false,false,['x']⟩
  let t₂ : Tokenizer := ⟨['x',' '],['"','*','"'],[],some .blank,none,false,false,['x',' ']⟩
  let t₃ : Tokenizer := ⟨quotedMark,[],[],some .string,none,false,false,quotedMark⟩
  exact ⟨_,.goesOn (t := t₁) rfl rfl <| .goesOn (t := t₂) rfl rfl <| .goesOn (t := t₃) rfl rfl <|
    .ends (t := t₃) (c := some (quotedMarkCommand aliases)) rfl rfl⟩

theorem quotesGlobs_quotedMark : Token.QuotesGlobs quotedMark quotedMarkTokens := by
  decide

/-- The mark in quotes behind a verb that is no alias. -/
theorem parseLine_quotes_globs_verb :
    ∃ parsed tree, parseLine quotedMark (globbing []) (fun _ => none) none () = (.ok parsed,()) ∧
      parsed.tree = some tree ∧ tree.command.isAlias = false ∧ tree.command.globArgs = [] := by
  obtain ⟨p,hreads⟩ := reads_quotedMark []
  have hparse := parseLine_last hreads.read_eq ()
  obtain ⟨hparts,-⟩ := parseLine_quotes_globs hparse rfl (.last hreads) (by decide)
    quotesGlobs_quotedMark (fun _ _ hget => by cases hget)
  obtain ⟨_,_,_,hk⟩ := Command.compile_keeps (quotedMarkCommand []).options
    (quotedMarkCommand []).command ()
  have halias : ((quotedMarkCommand []).command.compile (quotedMarkCommand []).options
      ()).1.isAlias = false := by
    rw [hk]
    rfl
  have hnone := (hparts _ (.head _) fun hyes => by cases halias.symm.trans hyes).1
  exact ⟨_,_,hparse,rfl,halias,hnone⟩

theorem quotedMarkCommand_alias :
    ((quotedMarkCommand [(['x'],['s','a','y'])]).command.compile
      (quotedMarkCommand [(['x'],['s','a','y'])]).options ()).1.globArgs = [0] := by
  decide +kernel

/-- An alias forgets what was quoted: by one, the mark in quotes is a file expression. -/
theorem not_parseLine_quotes_globs :
    ¬ ∀ (line : Text) (o : Options Unit) (settings : Settings) (parsed : ParsedLine)
      (tree : CommandTree) (tokens : List Token)
      (cs : List (OpenCommand Unit × Option Operator)) (t : Tokenizer),
      o.expandFileExpressions = true → parseLine line o settings none () = (.ok parsed,()) →
      parsed.tree = some tree → (Parser.new line o settings none).ReadsLine tokens cs t →
      (∀ s ∈ tokens, s.kind ≠ .history ∧ s.kind ≠ .substitution) →
      Token.QuotesGlobs line tokens →
      (∀ name template, o.aliases.get? name = some template → hasGlob template = false) →
      ∀ part ∈ tree.parts, part.command.globArgs = [] := by
  intro hall
  let aliases : Table Text Text := [(['x'],['s','a','y'])]
  obtain ⟨p,hreads⟩ := reads_quotedMark aliases
  have haliases : ∀ name template, aliases.get? name = some template →
      hasGlob template = false := by
    intro name template hget
    obtain ⟨-,rfl⟩ := Prod.mk.inj (List.mem_singleton.1 (Table.mem_of_get? hget))
    rfl
  have hnone := hall _ _ _ _ _ _ _ _ rfl (parseLine_last hreads.read_eq ()) rfl (.last hreads)
    (by decide) quotesGlobs_quotedMark haliases _ (.head _)
  cases quotedMarkCommand_alias.symm.trans hnone

end QuotedMark

end Realm
