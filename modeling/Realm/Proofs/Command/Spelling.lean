import Realm.Command.Word

/-! What a command means depends on its tokens by their kinds and values alone, and not on
the places where they stood. -/
namespace Realm

def Token.spelling (t : Token) : Token.Kind × Text :=
  (t.kind,t.value)

def Token.ofSpelling (s : Token.Kind × Text) : Token :=
  ⟨s.1,s.2,.input,0,0,none⟩

theorem Token.kind_congr {s t : Token} (h : s.spelling = t.spelling) : s.kind = t.kind :=
  congrArg Prod.fst h

theorem Token.value_congr {s t : Token} (h : s.spelling = t.spelling) : s.value = t.value :=
  congrArg Prod.snd h

theorem Token.rawText_congr {s t : Token} (h : s.spelling = t.spelling) :
    s.rawText = t.rawText := by
  unfold rawText
  rw [kind_congr h,value_congr h]

def Token.Alike (ss ts : List Token) : Prop :=
  ss.map spelling = ts.map spelling

namespace Token.Alike

variable {ss ts : List Token}

theorem takeWhile (h : Alike ss ts) (p : Token.Kind → Bool) :
    Alike (ss.takeWhile (p ·.kind)) (ts.takeWhile (p ·.kind)) := by
  have hw (ts : List Token) :
      (ts.takeWhile (p ·.kind)).map spelling = (ts.map spelling).takeWhile (p ·.1) := by
    rw [List.takeWhile_map]
    rfl
  rw [Alike,hw,hw]
  exact congrArg _ h

theorem dropWhile (h : Alike ss ts) (p : Token.Kind → Bool) :
    Alike (ss.dropWhile (p ·.kind)) (ts.dropWhile (p ·.kind)) := by
  have hw (ts : List Token) :
      (ts.dropWhile (p ·.kind)).map spelling = (ts.map spelling).dropWhile (p ·.1) := by
    rw [List.dropWhile_map]
    rfl
  rw [Alike,hw,hw]
  exact congrArg _ h

theorem of_append {more : List Token} (h : Alike (ss ++ more) ts) :
    ∃ first second, ts = first ++ second ∧ Alike ss first ∧ Alike more second := by
  rw [Alike,List.map_append] at h
  obtain ⟨first,second,rfl,hfirst,hsecond⟩ := List.map_eq_append_iff.1 h.symm
  exact ⟨first,second,rfl,hfirst.symm,hsecond.symm⟩

theorem flatMap_rawText (h : Alike ss ts) :
    ss.flatMap (·.rawText) = ts.flatMap (·.rawText) := by
  induction ss generalizing ts with
  | nil => cases ts with
    | nil => rfl
    | cons t ts => cases h
  | cons s ss ih => cases ts with
    | nil => cases h
    | cons t ts =>
      obtain ⟨hs,h⟩ := List.cons.inj h
      simp [rawText_congr hs,ih h]

end Token.Alike

theorem Fragment.ofTokens_congr {isVerb : Bool} {ss ts : List Token}
    (h : Token.Alike ss ts) : ofTokens isVerb ss = ofTokens isVerb ts := by
  induction hn : ss.length using Nat.strongRecOn generalizing isVerb ss ts with
  | ind n ih =>
    cases ss with
    | nil => cases ts with
      | nil => rfl
      | cons t ts => cases h
    | cons s ss => cases ts with
      | nil => cases h
      | cons t ts =>
        obtain ⟨hs,h⟩ := List.cons.inj h
        have hlt : ss.length < n := by rw [← hn]; exact Nat.lt_succ_self _
        have ih' : ofTokens false ss = ofTokens false ts := ih _ hlt h rfl
        have hle : (ss.dropWhile fun t => decide (t.kind = .member)).length < n :=
          Nat.lt_of_le_of_lt (List.dropWhile_suffix _).length_le hlt
        have hd : ofTokens false _ = ofTokens false _ :=
          ih _ hle (Token.Alike.dropWhile h (· = .member)) rfl
        have hm := (Token.Alike.takeWhile h (· = .member)).flatMap_rawText
        rw [ofTokens,ofTokens,Token.kind_congr hs,Token.value_congr hs,
          Token.rawText_congr hs,ih']
        simp only [hd,hm]

end Realm
