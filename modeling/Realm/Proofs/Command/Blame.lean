import Realm.Proofs.Command.Unlinking
import Realm.Proofs.Command.Reading

/-! What can be wrong with a line. Every error that reading a line comes to is an error in the
line, or a reference to what is not remembered, or asks for another line. Once the last command
has been read, the commands can be linked. -/
namespace Realm

def Error.OfLine : Error → Prop
  | .parse _ | .incomplete | .history _ => True
  | _ => False

/-- An error of the reader of tokens: a unit has no end, or a reference leads nowhere. -/
def Error.OfReader : Error → Prop
  | .parse (.unterminatedString _ _) | .parse (.unterminatedEscape _) | .incomplete
  | .history _ => True
  | _ => False

theorem Error.OfReader.ofLine {e : Error} (h : e.OfReader) : e.OfLine := by
  unfold OfReader at h
  split at h
  · trivial
  · trivial
  · trivial
  · trivial
  · exact h.elim

section Reader

variable {σ : Type} {o : Options σ} {ctx : LexContext} {e : Error}

theorem Lexeme.scan_ofReader {previous : Option Token.Kind} {start : Nat} {c : Char} {t : Text}
    (h : scan o ctx previous start c t = .error e) : e.OfReader := by
  have hquoted {kind : Token.Kind} {quote : Char} (h : quoted kind quote start t = .error e) :
      e.OfReader := by
    unfold quoted at h
    split at h <;> cases h
    trivial
  have hescape (h : escape o.toGrammar start t = .error e) : e.OfReader := by
    unfold escape at h
    repeat' split at h
    all_goals cases h
    all_goals trivial
  unfold scan special at h
  repeat' split at h
  all_goals first
    | exact hquoted h
    | exact hescape h
    | cases h

theorem Tokenizer.historyTokens_ofReader {previous : Option Token.Kind} {start : Nat} {text : Text}
    (h : historyTokens o ctx previous start text = .error e) : e.OfReader := by
  fun_induction historyTokens o ctx previous start text with
  | case1 => cases h
  | case2 ctx previous start c t ih =>
    cases hscan : Lexeme.scan o ctx previous start c t with
    | error e' =>
      rw [hscan] at h
      cases h
      exact Lexeme.scan_ofReader hscan
    | ok lexeme =>
      rw [hscan] at h
      simp only [bind,Except.bind] at h
      split at h
      · next he => cases h; exact ih lexeme he
      · cases h

theorem History.resolve_ofReader {history : List Text} {last : Option Substitution} {input : Text}
    (h : resolve history last input = .error e) : e.OfReader := by
  unfold resolve at h
  split at h <;> cases h
  trivial

theorem History.quickSubstitute_ofReader {history : List Text} {line : Text}
    (h : quickSubstitute line history = .error e) : e.OfReader := by
  unfold quickSubstitute at h
  split at h
  · cases h
    trivial
  · dsimp only at h
    split at h <;> cases h
    trivial

theorem Tokenizer.next_ofReader {t t' : Tokenizer} (h : t.next o ctx = (.error e,t')) :
    e.OfReader := by
  unfold next at h
  split at h
  · cases h
  · split at h
    · cases h
    · next c rest _ =>
      split at h
      · next e' t'' hd =>
        cases h
        unfold dispatch at hd
        split at hd
        · split at hd
          · next hsub => cases hd; exact History.quickSubstitute_ofReader hsub
          · cases hd
        · split at hd
          · unfold readMark at hd
            dsimp only at hd
            split at hd
            · cases hd
            · split at hd
              · next hres => cases hd; exact History.resolve_ofReader hres
              · split at hd
                · next htokens => cases hd; exact historyTokens_ofReader htokens
                · cases hd
          · split at hd
            · next hscan => cases hd; exact Lexeme.scan_ofReader hscan
            · cases hd
      · cases h

end Reader

namespace Parser

variable {σ : Type} {p p' : Parser σ} {e : Error}

theorem step_ofLine {token : Token} (h : p.step token = .error e) : e.OfLine := by
  have hunexpected : (unexpected p.tokenizer.source token).OfLine := by
    unfold unexpected
    split <;> trivial
  unfold step stepAwaitingVerb stepInCommand stepRedirectTarget at h
  repeat' split at h
  all_goals first
    | exact Except.error.inj h ▸ hunexpected
    | cases h
  trivial

theorem atEnd_error {phase : ParserPhase σ} (h : atEnd phase = .error e) :
    e = .parse .missingRedirectTarget := by
  unfold atEnd at h
  repeat' split at h
  all_goals cases h
  rfl

/-- A run of `read` up to a token that may not stand where it does: the tokens before it, this
token, and the error. -/
inductive Stumbles : Parser σ → List Token → Token → Error → Prop
  | here {p : Parser σ} {t : Tokenizer} {token : Token} {e : Error} :
    p.tokenizer.next p.grammar p.context = (.ok (some token),t) →
      step { p with tokenizer := t, phase := settle p.phase token } token = .error e →
      Stumbles p [] token e
  | goesOn {p : Parser σ} {t : Tokenizer} {token bad : Token} {phase : ParserPhase σ}
      {tokens : List Token} {e : Error} :
    p.tokenizer.next p.grammar p.context = (.ok (some token),t) →
      step { p with tokenizer := t, phase := settle p.phase token } token =
        .ok (.goOn phase) →
      Stumbles { p with tokenizer := t, phase } tokens bad e →
      Stumbles p (token :: tokens) bad e

theorem Stumbles.read_eq {tokens : List Token} {token : Token} (h : Stumbles p tokens token e) :
    ∃ p', p.read = (.error e,p') := by
  induction h with
  | here hn hs =>
    rw [read_token hn,hs]
    exact ⟨_,rfl⟩
  | goesOn hn hs _ ih =>
    rw [read_goesOn hn hs]
    exact ih

/-- The reasons for which a run fails: the reader does, the line ends too early, or a token may
not stand where it does. -/
theorem read_error (h : p.read = (.error e,p')) :
    e.OfReader ∨ e = .parse .missingRedirectTarget ∨
      ∃ tokens token, Stumbles p tokens token e := by
  induction hr : p.tokenizer.remaining using
    (WellFounded.induction (r := Tokenizer.Fewer)
      (Prod.lex Nat.lt_wfRel (Prod.lex Nat.lt_wfRel Nat.lt_wfRel)).wf) generalizing p with
  | _ r ih =>
    subst hr
    rw [Parser.read_eq] at h
    split at h
    · next hn =>
      cases h
      exact .inl (Tokenizer.next_ofReader hn)
    · split at h
      · next ha =>
        cases h
        exact .inr (.inl (atEnd_error ha))
      · cases h
    · next token t hn =>
      split at h
      · next hs =>
        cases h
        exact .inr (.inr ⟨[],token,.here hn hs⟩)
      · next phase hs =>
        rcases ih _ (Tokenizer.next_fewer hn) h rfl with he | he | ⟨tokens,bad,hbad⟩
        · exact .inl he
        · exact .inr (.inl he)
        · exact .inr (.inr ⟨token :: tokens,bad,.goesOn hn hs hbad⟩)
      · cases h

theorem Stumbles.ofLine {tokens : List Token} {token : Token} (h : Stumbles p tokens token e) :
    e.OfLine := by
  induction h with
  | here _ hs => exact step_ofLine hs
  | goesOn _ _ _ ih => exact ih

theorem read_ofLine (h : p.read = (.error e,p')) : e.OfLine := by
  rcases read_error h with he | rfl | ⟨tokens,token,hstumbles⟩
  · exact he.ofLine
  · trivial
  · exact hstumbles.ofLine

theorem nextCommand_ofLine {w w' : σ} (h : p.nextCommand w = ((.error e,p'),w')) : e.OfLine := by
  by_cases hd : p.phase = .done
  · rw [nextCommand_done hd] at h
    cases h
  · rw [nextCommand_eq hd] at h
    rcases hread : p.restart.read with ⟨e' | (_ | c),q⟩
    · rw [hread] at h
      cases h
      exact read_ofLine hread
    · rw [hread] at h
      cases h
    · rw [hread] at h
      cases h

theorem take_ofLine {n : Nat} {w : σ} : ∀ answer ∈ (take n p w).1, ∀ e, answer = .error e →
    e.OfLine := by
  induction n generalizing p w with
  | zero => exact nofun
  | succ n ih =>
    rcases h : p.nextCommand w with ⟨⟨answer,q⟩,w₁⟩
    rcases hs : take n q w₁ with ⟨answers,w₂⟩
    rw [take_succ h hs]
    refine List.forall_mem_cons.2 ⟨?_,?_⟩
    · rintro e rfl
      exact nextCommand_ofLine h
    · have := ih (p := q) (w := w₁)
      rwa [hs] at this

/-- A line up to a token that may not stand where it does, with the commands before it. -/
inductive StumblesLine : Parser σ → List Token → Token → Error → Prop
  | here {p : Parser σ} {tokens : List Token} {token : Token} {e : Error} :
    Stumbles p.restart tokens token e → StumblesLine p tokens token e
  | later {p p' : Parser σ} {tokens more : List Token} {token : Token} {c : OpenCommand σ}
      {operator : Operator} {e : Error} :
    Reads p.restart tokens (some (c,some operator)) p' → StumblesLine p' more token e →
      StumblesLine p (tokens ++ more) token e

theorem StumblesLine.commands_eq {tokens : List Token} {token : Token}
    (h : StumblesLine p tokens token e) (w : σ) : ((p.commands w).1).1 = .error e := by
  induction h generalizing w with
  | here h =>
    obtain ⟨p',hread⟩ := h.read_eq
    rw [commands_error hread]
    rfl
  | later h _ ih =>
    obtain ⟨command,w',hclosed⟩ := commands_closed_fst w h.read_eq
    rw [hclosed,ih]
    rfl

theorem commands_error_cases {w : σ} {t : Tokenizer} (h : (p.commands w).1 = (.error e,t)) :
    e.OfReader ∨ e = .parse .missingRedirectTarget ∨
      ∃ tokens token, StumblesLine p tokens token e := by
  induction hr : p.tokenizer.remaining using
    (WellFounded.induction (r := Tokenizer.Fewer)
      (Prod.lex Nat.lt_wfRel (Prod.lex Nat.lt_wfRel Nat.lt_wfRel)).wf) generalizing p w with
  | _ r ih =>
    subst hr
    rcases hread : p.restart.read with ⟨e' | (_ | ⟨c,_ | operator⟩),q⟩
    · rw [commands_error hread] at h
      cases h
      refine (read_error hread).imp_right (Or.imp_right ?_)
      rintro ⟨tokens,token,hstumbles⟩
      exact ⟨tokens,token,.here hstumbles⟩
    · rw [commands_none hread] at h
      cases h
    · rw [commands_last hread] at h
      cases h
    · obtain ⟨command,w',hclosed⟩ := commands_closed_fst w hread
      rw [hclosed] at h
      rcases hrest : (q.commands w').1 with ⟨e' | links,u⟩
      · rw [hrest] at h
        cases h
        obtain ⟨tokens,hreads⟩ := reads_of_read hread
        refine (ih _ (read_fewer (p := p.restart) hread) hrest rfl).imp_right (Or.imp_right ?_)
        rintro ⟨more,token,hstumbles⟩
        exact ⟨tokens ++ more,token,.later hreads hstumbles⟩
      · rw [hrest] at h
        cases h

theorem StumblesLine.ofLine {tokens : List Token} {token : Token}
    (h : StumblesLine p tokens token e) : e.OfLine := by
  induction h with
  | here h => exact h.ofLine
  | later _ _ ih => exact ih

theorem commands_joined {links : List CommandTree.Link} {t : Tokenizer} {w w' : σ}
    (h : p.commands w = ((.ok links,t),w')) : ∀ l ∈ links.dropLast, l.2 ≠ none := by
  induction links generalizing p w with
  | nil => exact nofun
  | cons l links ih =>
    rcases commands_ok h with ⟨_,-,hlinks,-⟩ | ⟨c,operator,q,rest,-,hlinks,htail⟩
    · cases hlinks
    · cases hlinks
      cases links with
      | nil => exact nofun
      | cons l' links =>
        rcases htail with ⟨-,hrest,-⟩ | ⟨hoperator,hrest⟩
        · cases hrest
        · exact List.forall_mem_cons.2 ⟨hoperator,ih hrest⟩

theorem link_commands {links : List CommandTree.Link} {t : Tokenizer} {w w' : σ}
    (h : p.commands w = ((.ok links,t),w')) (hlast : ∀ l, links.getLast? = some l → l.2 = none) :
    CommandTree.Linkable links :=
  ⟨commands_joined h,fun l hl => .inl (hlast l hl)⟩

end Parser

/-- Linking finds fault with nothing but an operator behind the last command. -/
theorem linkLine_error {σ : Type} {p : Parser σ} {links : List CommandTree.Link} {t : Tokenizer}
    {w w' : σ} {e : Error} (h : p.commands w = ((.ok links,t),w'))
    (he : linkLine links = .error e) : ∃ operator, e = .parse (.danglingOperator operator) := by
  unfold linkLine at he
  split at he
  · cases he
    exact ⟨_,rfl⟩
  · next hlast =>
    have hlinkable := Parser.link_commands h fun l hl => by
      rcases l with ⟨c,_ | operator⟩
      · rfl
      · exact absurd hl (hlast c operator)
    rw [CommandTree.link_of_linkable hlinkable] at he
    cases he

section Line

variable {σ : Type} {line : Text} {o : Options σ} {settings : Settings}
  {sub : Option History.Substitution} {e : Error} {w : σ}

theorem parseLine_error_cases (h : (parseLine line o settings sub w).1 = .error e) :
    e.OfReader ∨ e = .parse .missingRedirectTarget ∨
      (∃ operator, e = .parse (.danglingOperator operator)) ∨
      ∃ tokens token, (Parser.new line o settings sub).StumblesLine tokens token e := by
  rw [parseLine_fst] at h
  rcases hc : (Parser.new line o settings sub).commands w with ⟨⟨e' | links,t⟩,w₁⟩
  · rw [hc] at h
    cases h
    exact (Parser.commands_error_cases (congrArg Prod.fst hc)).imp_right (Or.imp_right .inr)
  · rw [hc] at h
    dsimp only [Except.bind] at h
    cases hl : linkLine links with
    | error e' =>
      rw [hl] at h
      cases h
      exact .inr (.inr (.inl (linkLine_error hc hl)))
    | ok tree =>
      rw [hl] at h
      cases h

theorem Parser.StumblesLine.parseLine_eq {tokens : List Token} {token : Token}
    (h : (Parser.new line o settings sub).StumblesLine tokens token e) (w : σ) :
    (parseLine line o settings sub w).1 = .error e := by
  rw [parseLine_fst]
  dsimp only
  rw [h.commands_eq w]
  rfl

/-- A line that is not understood is to blame for it. -/
theorem parseLine_ofLine (h : (parseLine line o settings sub w).1 = .error e) : e.OfLine := by
  rcases parseLine_error_cases h with he | rfl | ⟨operator,rfl⟩ | ⟨tokens,token,hstumbles⟩
  · exact he.ofLine
  · trivial
  · trivial
  · exact hstumbles.ofLine

end Line
end Realm
