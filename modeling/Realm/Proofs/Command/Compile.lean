import Realm.Command.Compile
import Realm.Proofs.Command.Spelling

/-! What compiling a command depends on: the spelling of its tokens and the values of the
variables, and neither places nor history. It works out words and leaves the rest alone. -/
namespace Realm

section Compile

variable {σ : Type} (o : Options σ) (history : List Text)

@[simp] theorem Word.ofFragments_history (expand : Bool) (current : Option Word)
    (fragments : List Fragment) :
    ofFragments { o with history } expand current fragments =
      ofFragments o expand current fragments := by
  induction fragments generalizing current with
  | nil => rw [ofFragments,ofFragments]
  | cons fragment fragments ih =>
    cases fragment with
    | gap | whole | plain | quoted => simp only [ofFragments,ih]
    | «variable» name raw =>
      simp only [ofFragments,ih]
      rfl

@[simp] theorem Alias.expand_history (expandVariables : Bool) (name template : Text)
    (args : List Text) :
    Alias.expand { o with history } expandVariables name template args =
      Alias.expand o expandVariables name template args := by
  have hp (others : List Text) :
      Piece.expand { o with history } expandVariables name args others =
        Piece.expand o expandVariables name args others := by
    funext p
    cases p <;> rfl
  simp only [expand,hp]

theorem Command.alias?_congr {c : Command} {tokens : List Token}
    (h : Token.Alike c.tokens tokens) :
    alias? { o with history } { c with tokens } = alias? o c := by
  unfold alias?
  cases hc : c.tokens with
  | nil => cases tokens with
    | nil => rfl
    | cons t ts => rw [hc] at h; cases h
  | cons s ss => cases tokens with
    | nil => rw [hc] at h; cases h
    | cons t ts =>
      rw [hc] at h
      obtain ⟨hs,-⟩ := List.cons.inj h
      simp only [Token.kind_congr hs,Token.value_congr hs]

/-- Commands with tokens of one spelling mean the same, whatever is remembered. -/
theorem Command.compile_congr {c : Command} {tokens : List Token}
    (h : Token.Alike c.tokens tokens) :
    compile { o with history } { c with tokens } =
      (fun k => { k with tokens }) <$> c.compile o := by
  have hwords (expand : Bool) : Word.ofTokens { o with history } expand tokens =
      Word.ofTokens o expand c.tokens := by
    simp [Word.ofTokens,Fragment.ofTokens_congr h]
  rw [compile,compile]
  simp only [hwords,map_bind,alias?_congr o history h,Alias.expand_history]
  congr 1
  funext words
  cases words with
  | nil => rfl
  | cons first rest =>
    dsimp only
    split
    · simp only [map_bind,map_pure]
    · split <;> rfl

theorem Command.compile_keeps (c : Command) (w : σ) :
    ∃ verb args globArgs, (c.compile o w).1 = { c with verb, args, globArgs } := by
  rw [compile]
  simp only [bind,StateT.bind]
  cases Word.ofTokens o (o.expandVariables && !decide (c.kind = .expression)) c.tokens w with
  | mk words w =>
    cases words with
    | nil => exact ⟨_,_,_,rfl⟩
    | cons first rest =>
      cases c.alias? o with
      | some expansion => exact ⟨_,_,_,rfl⟩
      | none =>
        by_cases h : c.kind = .expression
        · simp only [h]
          exact ⟨_,_,_,rfl⟩
        · simp only [h]
          exact ⟨_,_,_,rfl⟩

end Compile

/-- What a traversal comes to is what its elements come to, each in some state. -/
theorem mem_mapM {σ α β : Type} {f : α → StateM σ β} {xs : List α} {w : σ} {b : β}
    (h : b ∈ (xs.mapM f w).1) : ∃ a ∈ xs, ∃ w', b = (f a w').1 := by
  induction xs generalizing w with
  | nil => cases h
  | cons x xs ih =>
    rw [List.mapM_cons] at h
    rcases List.mem_cons.1 h with rfl | h
    · exact ⟨x,.head _,w,rfl⟩
    · obtain ⟨a,ha,w',hb⟩ := ih h
      exact ⟨a,.tail _ ha,w',hb⟩

def Steady {σ α : Type} (m : StateM σ α) : Prop :=
  ∃ a, m = pure a

theorem Steady.bind {σ α β : Type} {m : StateM σ α} {f : α → StateM σ β} (hm : Steady m)
    (hf : ∀ a, Steady (f a)) : Steady (m >>= f) := by
  obtain ⟨a,rfl⟩ := hm
  rw [pure_bind]
  exact hf a

theorem Steady.mapM {σ α β : Type} {f : α → StateM σ β} (hf : ∀ a, Steady (f a))
    (xs : List α) : Steady (xs.mapM f) := by
  induction xs with
  | nil => exact ⟨[],rfl⟩
  | cons x xs ih =>
    rw [List.mapM_cons]
    exact (hf x).bind fun _ => ih.bind fun _ => ⟨_,rfl⟩

/-- Every variable holds a plain text. -/
def Options.IsPlain {σ : Type} (o : Options σ) : Prop :=
  ∀ name v, o.environment.get? name = some v → ∃ t, v = .plain t

section Plain

variable {σ : Type} {o : Options σ}

theorem Options.IsPlain.valueOf (ho : o.IsPlain) (name : Text) : Steady (o.valueOf name) := by
  unfold Options.valueOf
  cases h : o.environment.get? name with
  | none => exact ⟨_,rfl⟩
  | some v =>
    obtain ⟨t,rfl⟩ := ho name v h
    exact ⟨t,rfl⟩

theorem Options.IsPlain.ofFragments (ho : o.IsPlain) (expand : Bool) (current : Option Word)
    (fragments : List Fragment) : Steady (Word.ofFragments o expand current fragments) := by
  induction fragments generalizing current with
  | nil =>
    rw [Word.ofFragments]
    exact ⟨_,rfl⟩
  | cons fragment fragments ih =>
    cases fragment with
    | gap | whole =>
      rw [Word.ofFragments]
      exact (ih _).bind fun _ => ⟨_,rfl⟩
    | plain | quoted =>
      rw [Word.ofFragments]
      exact ih _
    | «variable» name raw =>
      rw [Word.ofFragments]
      split
      · exact (ho.valueOf name).bind fun _ => ih _
      · exact Steady.bind ⟨_,rfl⟩ fun _ => ih _

theorem Options.IsPlain.expand (ho : o.IsPlain) (expandVariables : Bool) (name template : Text)
    (args : List Text) : Steady (Alias.expand o expandVariables name template args) := by
  have hp (others : List Text) (p : Alias.Piece) :
      Steady (p.expand o expandVariables name args others) := by
    cases p with
    | char | argument | others => exact ⟨_,rfl⟩
    | «variable» v =>
      rw [Alias.Piece.expand]
      split
      · exact ho.valueOf v
      · exact ⟨_,rfl⟩
  refine (Steady.mapM (hp _) _).bind fun parts => ?_
  split
  · exact ⟨_,rfl⟩
  · exact ⟨_,rfl⟩

theorem Options.IsPlain.compile (ho : o.IsPlain) (c : Command) : Steady (c.compile o) := by
  rw [Command.compile]
  refine (ho.ofFragments _ _ _).bind fun words => ?_
  cases words with
  | nil => exact ⟨_,rfl⟩
  | cons first rest =>
    dsimp only
    split
    · exact (ho.expand _ _ _ _).bind fun _ => ⟨_,rfl⟩
    · split
      · exact ⟨_,rfl⟩
      · exact ⟨_,rfl⟩

end Plain

end Realm
