import Realm.Proofs.Command.Cutting
import Realm.Proofs.Command.Extent
import Realm.Proofs.Text.Bytes

/-! Tokens cover the line. However a reader is used, and by whatever grammars, the tokens that
it has taken from the line follow each other without a gap up to where it is, and what it holds
as expanded is what they stand for. -/
namespace Realm

namespace Token

/-- Tokens that follow each other without a gap from one offset to another. -/
def Tiles : Nat → List Token → Nat → Prop
  | start,[],stop => start = stop
  | start,token :: tokens,stop =>
    token.start = start ∧ start < token.stop ∧ Tiles token.stop tokens stop

/-- What a token of a line stands for: the text that a history reference brings in, and what any
other token covers. -/
def expansion? (source : Text) (token : Token) : Option Text :=
  if token.kind = .history then some token.value else Text.slice? token.start token.stop source

def expansions? (source : Text) : List Token → Option Text
  | [] => some []
  | token :: tokens => do
    let text ← token.expansion? source
    let texts ← expansions? source tokens
    pure (text ++ texts)

theorem tiles_append {start stop stop' : Nat} {tokens tokens' : List Token}
    (h : Tiles start tokens stop) (h' : Tiles stop tokens' stop') :
    Tiles start (tokens ++ tokens') stop' := by
  induction tokens generalizing start with
  | nil =>
    obtain rfl : start = stop := h
    exact h'
  | cons token tokens ih => exact ⟨h.1,h.2.1,ih h.2.2⟩

theorem expansions?_append {source text text' : Text} {tokens tokens' : List Token}
    (h : expansions? source tokens = some text) (h' : expansions? source tokens' = some text') :
    expansions? source (tokens ++ tokens') = some (text ++ text') := by
  induction tokens generalizing text with
  | nil =>
    cases h
    exact h'
  | cons token tokens ih =>
    obtain ⟨first,hfirst,h⟩ := Option.bind_eq_some_iff.1 h
    obtain ⟨more,hmore,h⟩ := Option.bind_eq_some_iff.1 h
    cases h
    rw [List.cons_append,expansions?,hfirst,ih hmore]
    simp

/-- Tokens, the text that they cover, and the text that they stand for. -/
inductive Cover : List Token → Text → Text → Prop
  | none : Cover [] [] []
  | more {tokens : List Token} {text expanded piece : Text} {token : Token}
      (h : Cover tokens text expanded) (hpiece : piece ≠ [])
      (hstart : token.start = Text.byteSize text)
      (hstop : token.stop = Text.byteSize text + Text.byteSize piece) :
      Cover (tokens ++ [token]) (text ++ piece)
        (expanded ++ if token.kind = .history then token.value else piece)

variable {tokens : List Token} {text expanded : Text}

theorem byteSize_pos {piece : Text} (h : piece ≠ []) : 0 < Text.byteSize piece := by
  cases piece with
  | nil => exact absurd rfl h
  | cons c piece => exact Nat.lt_of_lt_of_le c.utf8Size_pos (Nat.le_add_right _ _)

theorem Cover.tiles (h : Cover tokens text expanded) : Tiles 0 tokens (Text.byteSize text) := by
  induction h with
  | none => rfl
  | @more tokens text expanded piece token h hpiece hstart hstop ih =>
    have hpos := byteSize_pos hpiece
    refine tiles_append ih ⟨hstart,by omega,?_⟩
    rw [Tiles,hstop,Text.byteSize_append]

theorem Cover.slice_isSome (h : Cover tokens text expanded) (rest : Text) :
    ∀ token ∈ tokens, (Text.slice? token.start token.stop (text ++ rest)).isSome = true := by
  induction h generalizing rest with
  | none => simp
  | @more tokens text expanded piece token h hpiece hstart hstop ih =>
    intro token' htoken
    rw [List.append_assoc]
    rcases List.mem_append.1 htoken with htoken | htoken
    · exact ih (piece ++ rest) token' htoken
    · rw [List.mem_singleton.1 htoken,hstart,hstop,Text.slice?_append]
      rfl

theorem Cover.expansions (h : Cover tokens text expanded) (rest : Text) :
    expansions? (text ++ rest) tokens = some expanded := by
  induction h generalizing rest with
  | none => rfl
  | @more tokens text expanded piece token h hpiece hstart hstop ih =>
    rw [List.append_assoc]
    refine expansions?_append (ih (piece ++ rest)) ?_
    rw [expansions?,expansion?,hstart,hstop,Text.slice?_append]
    split <;> simp [expansions?]

end Token

theorem Lexeme.kind_of_scan {σ : Type} {o : Options σ} {ctx : LexContext}
    {previous : Option Token.Kind} {start : Nat} {c : Char} {t : Text} {lexeme : Lexeme}
    (h : scan o ctx previous start c t = .ok lexeme) :
    lexeme.kind ≠ .history ∧ lexeme.kind ≠ .substitution := by
  rcases scan_kind h with ⟨hk,-,-⟩ | hk
  · rw [hk]
    decide
  · constructor <;> intro hno <;> rw [hno] at hk <;> revert hk <;> decide

namespace Tokenizer

variable {σ : Type} {o : Options σ} {ctx : LexContext} {t t' : Tokenizer} {token : Token}

/-- A reader that has passed over a piece of the line, and made a token of it. -/
structure Passes (t : Tokenizer) (token : Token) (piece : Text) (t' : Tokenizer) : Prop where
  piece_ne : piece ≠ []
  rest_eq : t.rest = piece ++ t'.rest
  before_eq : t'.before = t.before ++ piece
  start_eq : token.start = t.index
  stop_eq : token.stop = t.index + Text.byteSize piece
  expanded_eq : t'.expanded = t.expanded ++ if token.kind = .history then token.value else piece
  kind_ne : token.kind ≠ .substitution
  restarted_eq : t'.restarted = t.restarted

structure Restarts (t : Tokenizer) (token : Token) (t' : Tokenizer) : Prop where
  kind_eq : token.kind = .substitution
  first : t.restarted = false
  restarted_eq : t'.restarted = true
  before_eq : t'.before = []
  rest_eq : t'.rest = token.value
  expanded_eq : t'.expanded = []

/-- A reader that is where it was, with the same tokens in waiting. -/
structure Stays (t t' : Tokenizer) : Prop where
  before_eq : t'.before = t.before
  rest_eq : t'.rest = t.rest
  expanded_eq : t'.expanded = t.expanded
  restarted_eq : t'.restarted = t.restarted

theorem passes_skip {c : Char} {rest : Text} (hr : t.rest = c :: rest) {kind : Token.Kind}
    {value expansion : Text} {width : Nat} (hwidth : 0 < width) (hkind : kind ≠ .substitution)
    (hexpansion : expansion = if kind = .history then value else t.rest.take width)
    {stack : List Token} {sub : Option History.Substitution} {printOnly : Bool} :
    Passes t (t.token kind value width) (t.rest.take width)
      { t.skip width expansion with stack, lastSubstitution := sub, printOnly } where
  piece_ne := by
    obtain ⟨n,rfl⟩ := Nat.exists_eq_succ_of_ne_zero (Nat.ne_of_gt hwidth)
    rw [hr]
    simp
  rest_eq := (List.take_append_drop width t.rest).symm
  before_eq := rfl
  start_eq := rfl
  stop_eq := rfl
  expanded_eq := congrArg (t.expanded ++ ·) hexpansion
  kind_ne := hkind
  restarted_eq := rfl

theorem Passes.given {piece : Text} (h : Passes t token piece t') (previous : Option Token.Kind) :
    Passes t token piece { t' with previous } :=
  ⟨h.piece_ne,h.rest_eq,h.before_eq,h.start_eq,h.stop_eq,h.expanded_eq,h.kind_ne,h.restarted_eq⟩

theorem Dispatched.passes_or_restarts {c : Char} {rest : Text} (hr : t.rest = c :: rest)
    (h : Dispatched o ctx t c rest token t') :
    (∃ piece, Passes t token piece t') ∨ Restarts t token t' := by
  cases h with
  | replaced hquick => exact .inr ⟨rfl,hquick.2.2.2.1,rfl,rfl,rfl,rfl⟩
  | marked hc =>
    refine .inl ⟨_,passes_skip hr (by decide) (by decide) ?_⟩
    rw [hr,hc]
    rfl
  | referred _ hresolved =>
    exact .inl ⟨_,passes_skip hr (History.reference_length_pos hresolved) (by decide) rfl⟩
  | @scanned lexeme hscan =>
    obtain ⟨hhistory,hsubstitution⟩ := Lexeme.kind_of_scan hscan
    exact .inl ⟨_,passes_skip hr lexeme.width_pos hsubstitution (if_neg hhistory).symm⟩

theorem dispatch_error {c : Char} {rest : Text} {e : Error}
    (h : t.dispatch o ctx c rest = (.error e,t')) : Stays t t' ∧ t'.stack = t.stack := by
  unfold dispatch at h
  split at h
  · split at h <;> cases h
    exact ⟨⟨rfl,rfl,rfl,rfl⟩,rfl⟩
  · split at h
    · unfold readMark at h
      dsimp only at h
      split at h
      · cases h
      · split at h
        · cases h
          exact ⟨⟨rfl,rfl,rfl,rfl⟩,rfl⟩
        · split at h <;> cases h
          exact ⟨⟨rfl,rfl,rfl,rfl⟩,rfl⟩
    · split at h <;> cases h
      exact ⟨⟨rfl,rfl,rfl,rfl⟩,rfl⟩

theorem Stays.offsets (h : Stays t t') :
    t'.source = t.source ∧ t'.index = t.index ∧ t'.expanded = t.expanded := by
  rw [source,index,h.before_eq,h.rest_eq]
  exact ⟨rfl,rfl,h.expanded_eq⟩

theorem Passes.offsets {piece : Text} (h : Passes t token piece t') :
    t'.source = t.source ∧ token.start = t.index ∧ t.index < t'.index ∧ token.stop = t'.index := by
  have hpos := Token.byteSize_pos h.piece_ne
  have hindex : t'.index = t.index + Text.byteSize piece := by
    rw [index,h.before_eq,Text.byteSize_append]
    rfl
  refine ⟨?_,h.start_eq,by omega,h.stop_eq.trans hindex.symm⟩
  simp [source,h.before_eq,h.rest_eq]

theorem Restarts.offsets (h : Restarts t token t') :
    t'.source = token.value ∧ t'.index = 0 ∧ t'.expanded = [] := by
  rw [source,index,h.before_eq,h.rest_eq]
  exact ⟨rfl,rfl,h.expanded_eq⟩

inductive Answers (t : Tokenizer) : Except Error (Option Token) × Tokenizer → Prop
  | failed {e : Error} {t' : Tokenizer} (h : Stays t t') (hstack : t'.stack = t.stack) :
      Answers t (.error e,t')
  | ended (hstack : t.stack = []) (hrest : t.rest = []) : Answers t (.ok none,t)
  | waiting {token : Token} {t' : Tokenizer} (h : Stays t t')
      (hstack : t.stack = token :: t'.stack) : Answers t (.ok (some token),t')
  | passed {token : Token} {piece : Text} {t' : Tokenizer} (hstack : t.stack = [])
      (h : Passes t token piece t') : Answers t (.ok (some token),t')
  | restarted {token : Token} {t' : Tokenizer} (hstack : t.stack = []) (h : Restarts t token t') :
      Answers t (.ok (some token),t')

theorem next_answers (o : Options σ) (ctx : LexContext) (t : Tokenizer) :
    Answers t (t.next o ctx) := by
  cases hstack : t.stack with
  | cons token stack =>
    rw [next_stack hstack]
    exact .waiting ⟨rfl,rfl,rfl,rfl⟩ hstack
  | nil =>
    cases hr : t.rest with
    | nil =>
      rw [next_none hstack hr]
      exact .ended hstack hr
    | cons c rest =>
      rcases hd : t.dispatch o ctx c rest with ⟨e | token,t'⟩
      · rw [next_error hstack hr hd]
        obtain ⟨hstays,hkeeps⟩ := dispatch_error hd
        exact .failed hstays hkeeps
      · rw [next_dispatch hstack hr hd]
        rcases (dispatched hd).passes_or_restarts hr with ⟨piece,h⟩ | h
        · exact .passed hstack (h.given _)
        · exact .restarted hstack ⟨h.kind_eq,h.first,h.restarted_eq,h.before_eq,h.rest_eq,
            h.expanded_eq⟩

theorem Answers.offsets {r : Except Error (Option Token) × Tokenizer} (h : Answers t r) :
    (∀ e, r.1 = .error e → r.2.source = t.source ∧ r.2.index = t.index ∧
      r.2.expanded = t.expanded ∧ r.2.stack = t.stack) ∧
    (r.1 = .ok none → r.2 = t ∧ t.stack = [] ∧ t.index = Text.byteSize t.source) ∧
    ∀ token, r.1 = .ok (some token) →
      (t.stack ≠ [] → t.stack = token :: r.2.stack ∧ r.2.source = t.source ∧
        r.2.index = t.index ∧ r.2.expanded = t.expanded) ∧
      (t.stack = [] → token.kind ≠ .substitution → r.2.source = t.source ∧
        token.start = t.index ∧ t.index < r.2.index ∧ token.stop = r.2.index) ∧
      (t.stack = [] → token.kind = .substitution → t.restarted = false ∧
        r.2.source = token.value ∧ r.2.index = 0 ∧ r.2.expanded = []) := by
  cases h with
  | failed hstays hstack =>
    obtain ⟨hsource,hindex,hexpanded⟩ := hstays.offsets
    exact ⟨fun _ _ => ⟨hsource,hindex,hexpanded,hstack⟩,nofun,nofun⟩
  | ended hstack hrest =>
    refine ⟨nofun,fun _ => ⟨rfl,hstack,?_⟩,nofun⟩
    rw [index,source,hrest,List.append_nil]
  | waiting hstays hstack =>
    refine ⟨nofun,nofun,fun token htoken => ?_⟩
    cases htoken
    exact ⟨fun _ => ⟨hstack,hstays.offsets⟩,fun hnone => by simp [hstack] at hnone,
      fun hnone => by simp [hstack] at hnone⟩
  | passed hstack hpasses =>
    refine ⟨nofun,nofun,fun token htoken => ?_⟩
    cases htoken
    exact ⟨fun hsome => absurd hstack hsome,fun _ _ => hpasses.offsets,
      fun _ hkind => absurd hkind hpasses.kind_ne⟩
  | restarted hstack hrestarts =>
    refine ⟨nofun,nofun,fun token htoken => ?_⟩
    cases htoken
    exact ⟨fun hsome => absurd hstack hsome,fun _ hkind => absurd hrestarts.kind_eq hkind,
      fun _ _ => ⟨hrestarts.first,hrestarts.offsets⟩⟩

/-- What is asked of a reader. -/
inductive Call (σ : Type) where
  | next (o : Options σ) (ctx : LexContext)
  | pushBack (token : Token)

end Tokenizer

structure Transcript where
  reader : Tokenizer
  /-- The tokens that it has taken from the line, since it began afresh if it has. -/
  taken : List Token
  /-- How often it has begun afresh. -/
  restarts : Nat

namespace Transcript

open Tokenizer (Call)
open Token (Cover Tiles expansions?)

variable {σ : Type}

def new (line : Text) (last : Option History.Substitution) : Transcript :=
  ⟨Tokenizer.new line last,[],0⟩

/-- Note what has come of asking for a token. One that comes while none is in waiting is taken
from the line, or begins it afresh. -/
def note (s : Transcript) : Except Error (Option Token) × Tokenizer → Transcript
  | (.ok (some token),t) =>
    if s.reader.stack ≠ [] then { s with reader := t }
    else if token.kind = .substitution then ⟨t,[],s.restarts + 1⟩
    else ⟨t,s.taken ++ [token],s.restarts⟩
  | (_,t) => { s with reader := t }

def step (s : Transcript) : Call σ → Transcript
  | .next o ctx => s.note (s.reader.next o ctx)
  | .pushBack token => { s with reader := s.reader.pushBack token }

/-- Carry out calls, each whatever became of those before it. -/
def run (line : Text) (last : Option History.Substitution) (calls : List (Call σ)) : Transcript :=
  calls.foldl step (new line last)

/-- The tokens taken from the line cover what has been read and stand for what is expanded. -/
structure Whole (s : Transcript) : Prop where
  cover : Cover s.taken s.reader.before s.reader.expanded
  restarts_eq : s.restarts = if s.reader.restarted then 1 else 0

theorem whole_new (line : Text) (last : Option History.Substitution) : (new line last).Whole :=
  ⟨.none,rfl⟩

/-- Whatever comes of asking for a token, the tokens cover what has been read. -/
theorem Whole.note {s : Transcript} (h : s.Whole) {r : Except Error (Option Token) × Tokenizer}
    (hr : Tokenizer.Answers s.reader r) : (s.note r).Whole := by
  have hstays : ∀ t', Tokenizer.Stays s.reader t' → Whole { s with reader := t' } := by
    intro t' ht
    refine ⟨?_,h.restarts_eq.trans ?_⟩
    · rw [ht.before_eq,ht.expanded_eq]
      exact h.cover
    · rw [ht.restarted_eq]
  cases hr with
  | failed ht hstack => exact hstays _ ht
  | ended hstack hrest => exact h
  | waiting ht hstack =>
    rw [Transcript.note,if_pos (by simp [hstack])]
    exact hstays _ ht
  | passed hstack ht =>
    rw [Transcript.note,if_neg (not_not_intro hstack),if_neg ht.kind_ne]
    refine ⟨?_,h.restarts_eq.trans ?_⟩
    · rw [ht.before_eq,ht.expanded_eq]
      exact .more h.cover ht.piece_ne ht.start_eq ht.stop_eq
    · rw [ht.restarted_eq]
  | restarted hstack ht =>
    rw [Transcript.note,if_neg (not_not_intro hstack),if_pos ht.kind_eq]
    refine ⟨?_,?_⟩
    · rw [ht.before_eq,ht.expanded_eq]
      exact .none
    · rw [h.restarts_eq,ht.first,ht.restarted_eq]
      rfl

theorem Whole.step {s : Transcript} (h : s.Whole) (call : Call σ) : (s.step call).Whole := by
  cases call with
  | next o ctx => exact h.note (Tokenizer.next_answers o ctx s.reader)
  | pushBack token => exact ⟨h.cover,h.restarts_eq⟩

theorem whole_run (line : Text) (last : Option History.Substitution) (calls : List (Call σ)) :
    (run line last calls).Whole := by
  have hfold : ∀ (calls : List (Call σ)) (s : Transcript),
      s.Whole → (calls.foldl step s).Whole := by
    intro calls
    induction calls with
    | nil => exact fun s h => h
    | cons call calls ih => exact fun s h => ih _ (h.step call)
  exact hfold calls _ (whole_new line last)

/-- However a reader is used, its tokens cover the line. After any calls, by any grammars and in
any contexts, refused or not, and with any tokens pushed back in between: the reader is between
two characters of its line, the tokens it has taken from the line follow each other without a gap
from the beginning to where it is, each over text that is there, and what it holds as expanded is
what they stand for; and it has begun afresh once at most. A further call that fails leaves it
where it is; one that gives a token in waiting does so too; any other token brings it at least one
byte further, up to the token's end, or begins it afresh on the token's value. No lexeme and no
history reference goes beyond the end of the text that it is read from. -/
theorem run_covers (line : Text) (last : Option History.Substitution) (calls : List (Call σ)) :
    let s := run line last calls
    let t := s.reader
    Text.IsBoundary t.index t.source ∧ t.index ≤ Text.byteSize t.source ∧
      Tiles 0 s.taken t.index ∧
      (∀ token ∈ s.taken, (Text.slice? token.start token.stop t.source).isSome = true) ∧
      expansions? t.source s.taken = some t.expanded ∧ s.restarts ≤ 1 ∧
      (∀ (o : Options σ) (ctx : LexContext),
        let r := t.next o ctx
        (∀ e, r.1 = .error e → r.2.source = t.source ∧ r.2.index = t.index ∧
          r.2.expanded = t.expanded ∧ r.2.stack = t.stack) ∧
        (r.1 = .ok none → r.2 = t ∧ t.stack = [] ∧ t.index = Text.byteSize t.source) ∧
        ∀ token, r.1 = .ok (some token) →
          (t.stack ≠ [] → t.stack = token :: r.2.stack ∧ r.2.source = t.source ∧
            r.2.index = t.index ∧ r.2.expanded = t.expanded) ∧
          (t.stack = [] → token.kind ≠ .substitution → r.2.source = t.source ∧
            token.start = t.index ∧ t.index < r.2.index ∧ token.stop = r.2.index) ∧
          (t.stack = [] → token.kind = .substitution → s.restarts = 0 ∧
            r.2.source = token.value ∧ r.2.index = 0 ∧ r.2.expanded = [])) ∧
      (∀ (o : Options σ) (ctx : LexContext) (previous : Option Token.Kind) (start : Nat) (c : Char)
        (text : Text) (lexeme : Lexeme), Lexeme.scan o ctx previous start c text = .ok lexeme →
          lexeme.width ≤ (c :: text).length) ∧
      ∀ (history : List Text) (last : Option History.Substitution) (input : Text)
        (r : History.Resolved), History.resolve history last ('!' :: input) = .ok r →
          ∃ rest, r.Leaves input rest := by
  intro s t
  have h : s.Whole := whole_run line last calls
  refine ⟨Text.isBoundary_append _ _,?_,h.cover.tiles,h.cover.slice_isSome _,h.cover.expansions _,
    ?_,fun o ctx => ?_,fun _ _ _ _ _ _ _ => Lexeme.scan_width,
    fun _ _ _ _ => History.resolve_leaves⟩
  · show Text.byteSize t.before ≤ Text.byteSize (t.before ++ t.rest)
    rw [Text.byteSize_append]
    exact Nat.le_add_right _ _
  · rw [h.restarts_eq]
    split <;> decide
  · obtain ⟨hfailed,hended,hgiven⟩ := (Tokenizer.next_answers o ctx t).offsets
    refine ⟨hfailed,hended,fun token htoken => ?_⟩
    obtain ⟨hwaiting,hpassed,hrestarted⟩ := hgiven token htoken
    refine ⟨hwaiting,hpassed,fun hstack hkind => ?_⟩
    obtain ⟨hfirst,hoffsets⟩ := hrestarted hstack hkind
    refine ⟨?_,hoffsets⟩
    rw [h.restarts_eq,hfirst]
    rfl

end Transcript
end Realm
