import Mathlib.Data.Int.Notation
import Mathlib.Data.List.Basic
import Mathlib.Data.List.Infix

/-!
# SQL texts with placeholders

A statement reaches the database as a text and the values of its placeholders.
`render` is a builder that writes its literal pieces out and replaces the values
among them by `$1`, `$2`, …; `lex` reads a text back, in one pass. What stands between
quotes is a string, whatever it looks like: a `$1` in there is not a placeholder.
-/

namespace Foundation.SqlText

inductive Value where
  | text (s : String)
  | int (n : ℤ)
deriving DecidableEq, Repr

inductive Piece where
  | sql (text : String)
  | value (v : Value)
deriving DecidableEq, Repr

/-- A text and the values of its placeholders, the first one at `$1`. -/
structure Statement where
  text : List Char
  values : List Value
deriving DecidableEq, Repr

/-- `k` placeholders stand to the left of the pieces. -/
def renderFrom : ℕ → List Piece → Statement
  | _, [] => ⟨[], []⟩
  | k, .sql s :: pieces =>
      let rest := renderFrom k pieces
      ⟨s.toList ++ rest.text, rest.values⟩
  | k, .value v :: pieces =>
      let rest := renderFrom (k + 1) pieces
      ⟨('$' :: Nat.toDigits 10 (k + 1)) ++ rest.text, v :: rest.values⟩

def render (pieces : List Piece) : Statement := renderFrom 0 pieces

/-- Every `%s` of a format, replaced by the arguments in order. -/
def formatS : List Char → List String → List Char
  | '%' :: 's' :: cs, arg :: args => arg.toList ++ formatS cs args
  | c :: cs, args => c :: formatS cs args
  | [], _ => []

/-! ## Tokens -/

/-- Words are folded to lower case, as keywords and unquoted names are. -/
inductive Token where
  | word (s : String)
  | name (s : String)
  | literal (s : String)
  | symbol (s : String)
  | param (n : ℕ)
deriving DecidableEq, Repr

inductive Quote where
  | single
  | double
deriving DecidableEq, Repr

def Quote.char : Quote → Char
  | .single => '\''
  | .double => '"'

inductive Mode where
  | between
  | word (read : List Char)
  | symbol (read : List Char)
  | param (n : ℕ)
  | quoted (quote : Quote) (read : List Char)
  /-- Behind a quote that ends the text, or is the first of two. -/
  | closed (quote : Quote) (read : List Char)
  | dash
  | comment
  /-- Behind a token of one character. -/
  | whole (token : Token)
deriving DecidableEq, Repr

/-- The token that ends here. -/
def Mode.pending : Mode → List Token
  | .word read => [.word (String.ofList read)]
  | .symbol read => [.symbol (String.ofList read)]
  | .param n => [.param n]
  | .closed .single read => [.literal (String.ofList read)]
  | .closed .double read => [.name (String.ofList read)]
  | .dash => [.symbol "-"]
  | .whole token => [token]
  | .between | .quoted _ _ | .comment => []

def isWordChar (c : Char) : Bool := c.isAlphanum || c = '_' || c = '$' || decide (128 ≤ c.toNat)

/-- These make one symbol with those of them that follow. -/
def isComparison (c : Char) : Bool := c = '<' || c = '>' || c = '='

/-- What the first character of a token begins; a `?` is the placeholder of its own position. -/
def Mode.ofFirst (asked : ℕ) (c : Char) : Mode :=
  if c.isWhitespace then .between
  else if c = Quote.single.char then .quoted .single []
  else if c = Quote.double.char then .quoted .double []
  else if c = '-' then .dash
  else if c = '$' then .param 0
  else if c = '?' then .whole (.param (asked + 1))
  else if isComparison c then .symbol [c]
  else if isWordChar c then .word [c.toLower]
  else .whole (.symbol (String.singleton c))

/-- The tokens so far, what is being read, and how many `?` there were. -/
structure Lexer where
  tokens : List Token := []
  mode : Mode := .between
  asked : ℕ := 0
deriving DecidableEq, Repr

namespace Lexer

def readTokens (l : Lexer) : List Token := l.tokens ++ l.mode.pending

/-- The token that was read ends here. -/
def flush (l : Lexer) : Lexer := ⟨l.readTokens, .between, l.asked⟩

def start (l : Lexer) (c : Char) : Lexer where
  tokens := l.tokens
  mode := .ofFirst l.asked c
  asked := if c = '?' then l.asked + 1 else l.asked

def step (l : Lexer) (c : Char) : Lexer :=
  match l.mode with
  | .between => l.start c
  | .word read =>
      if isWordChar c then { l with mode := .word (read ++ [c.toLower]) } else l.flush.start c
  | .symbol read =>
      if isComparison c then { l with mode := .symbol (read ++ [c]) } else l.flush.start c
  | .param n =>
      if c.isDigit then { l with mode := .param (10 * n + (c.toNat - 48)) } else l.flush.start c
  | .quoted quote read =>
      if c = quote.char then { l with mode := .closed quote read }
      else { l with mode := .quoted quote (read ++ [c]) }
  | .closed quote read =>
      if c = quote.char then { l with mode := .quoted quote (read ++ [c]) } else l.flush.start c
  | .dash => if c = '-' then { l with mode := .comment } else l.flush.start c
  | .comment => if c = '\n' then { l with mode := .between } else l
  | .whole _ => l.flush.start c

/-- Nothing that is open swallows what follows. -/
def Closed (l : Lexer) : Prop :=
  match l.mode with
  | .quoted _ _ | .comment => False
  | _ => True

instance (l : Lexer) : Decidable l.Closed := by
  unfold Closed
  split <;> infer_instance

def run (l : Lexer) (text : List Char) : Lexer := text.foldl step l

/-- The tokens of the whole text; `none` is a quote that stays open. -/
def finish (l : Lexer) : Option (List Token) :=
  match l.mode with
  | .quoted _ _ => none
  | _ => some l.readTokens

end Lexer

def lex (text : List Char) : Option (List Token) := (Lexer.run {} text).finish

/-! ## What a step reads -/

namespace Lexer

theorem run_append (l : Lexer) (a b : List Char) : l.run (a ++ b) = (l.run a).run b :=
  List.foldl_append

theorem run_cons (l : Lexer) (c : Char) (cs : List Char) : l.run (c :: cs) = (l.step c).run cs :=
  rfl

/-- What is read stays read, with the same tokens in front. -/
def after (ts : List Token) (l : Lexer) : Lexer := { l with tokens := ts ++ l.tokens }

theorem readTokens_after (ts : List Token) (l : Lexer) :
    (l.after ts).readTokens = ts ++ l.readTokens :=
  List.append_assoc ts l.tokens l.mode.pending

theorem flush_after (ts : List Token) (l : Lexer) : (l.after ts).flush = l.flush.after ts :=
  congrArg (Lexer.mk · _ _) (readTokens_after ts l)

theorem step_after (ts : List Token) (l : Lexer) (c : Char) :
    (l.after ts).step c = (l.step c).after ts := by
  have hnext : (l.after ts).flush.start c = (l.flush.start c).after ts :=
    congrArg (start · c) (flush_after ts l)
  obtain ⟨tokens, mode, asked⟩ := l
  cases mode
  case between => rfl
  case whole => exact hnext
  -- the token goes on, or another one starts
  all_goals
    simp only [step, after]
    split
    all_goals first
      | rfl
      | exact hnext

theorem run_after (ts : List Token) (l : Lexer) (text : List Char) :
    (l.after ts).run text = (l.run text).after ts := by
  induction text generalizing l with
  | nil => rfl
  | cons c text ih => rw [run_cons, run_cons, step_after, ih]

/-- A blank ends what is not open. -/
theorem step_blank {l : Lexer} (h : l.Closed) : l.step ' ' = l.flush := by
  obtain ⟨tokens, mode, asked⟩ := l
  cases mode with
  | between =>
      rw [flush, readTokens, Mode.pending, List.append_nil]
      rfl
  | quoted quote read => exact h.elim
  | comment => exact h.elim
  | closed quote read => cases quote <;> rfl
  | _ => rfl

/-- After a blank the reading goes on as from the start. -/
theorem run_blank {l : Lexer} (h : l.Closed) (text : List Char) :
    l.run (' ' :: text) = (Lexer.run ⟨[], .between, l.asked⟩ text).after l.readTokens := by
  rw [run_cons, step_blank h, ← run_after, after, List.append_nil, flush]

/-- What is read stays read. -/
theorem step_isPrefix (l : Lexer) (c : Char) : l.tokens <+: (l.step c).tokens := by
  have hnext : l.tokens <+: (l.flush.start c).tokens := List.prefix_append _ _
  obtain ⟨tokens, mode, asked⟩ := l
  cases mode
  case between => exact List.prefix_refl _
  case whole => exact hnext
  all_goals
    simp only [step]
    split
    all_goals first
      | exact List.prefix_refl _
      | exact hnext

theorem run_isPrefix (l : Lexer) (text : List Char) : l.tokens <+: (l.run text).tokens := by
  induction text generalizing l with
  | nil => exact List.prefix_refl _
  | cons c text ih => exact (step_isPrefix l c).trans (ih _)

theorem finish_isPrefix {l : Lexer} {tokens : List Token} (h : l.finish = some tokens) :
    l.tokens <+: tokens := by
  unfold finish at h
  split at h
  · cases h
  · cases h
    exact List.prefix_append _ _

end Lexer

/-! ## Text between quotes -/

/-- The string behind an opening quote, up to the quote that closes it, and what follows; a
doubled quote stands for one. -/
def readLiteral : List Char → Option (List Char × List Char)
  | [] => none
  | '\'' :: '\'' :: cs => (readLiteral cs).map fun p => ('\'' :: p.1, p.2)
  | '\'' :: cs => some ([], cs)
  | c :: cs => (readLiteral cs).map fun p => (c :: p.1, p.2)

/-- A text without quotes is itself between quotes. -/
theorem readLiteral_of_plain {cs : List Char} (h : '\'' ∉ cs) :
    readLiteral (cs ++ ['\'']) = some (cs, []) := by
  induction cs with
  | nil => rfl
  | cons c cs ih =>
      rw [List.mem_cons, not_or] at h
      have hc : c ≠ '\'' := fun heq => h.1 heq.symm
      have hrest := ih h.2
      rw [List.cons_append, readLiteral.eq_4 c (cs ++ ['\'']) (fun _ heq _ => hc heq) hc, hrest]
      rfl

namespace Lexer

/-- What is read of a string is what stands between its quotes. -/
theorem run_quoted (tokens : List Token) (read cs : List Char) (k : ℕ) :
    (∀ x rest, readLiteral cs = some (x, rest) →
      (⟨tokens, .quoted .single read, k⟩ : Lexer).run cs =
        Lexer.run ⟨tokens, .closed .single (read ++ x), k⟩ rest) ∧
    (readLiteral cs = none → ∃ r, (⟨tokens, .quoted .single read, k⟩ : Lexer).run cs =
      ⟨tokens, .quoted .single r, k⟩) := by
  induction cs using readLiteral.induct generalizing read with
  | case1 => exact ⟨fun _ _ h => (nomatch h), fun _ => ⟨read, rfl⟩⟩
  | case2 cs ih =>
      have hrun : (⟨tokens, .quoted .single read, k⟩ : Lexer).run ('\'' :: '\'' :: cs) =
          (⟨tokens, .quoted .single (read ++ ['\'']), k⟩ : Lexer).run cs := rfl
      rw [hrun, readLiteral]
      constructor
      · intro x rest h
        obtain ⟨p, hp, heq⟩ := Option.map_eq_some_iff.mp h
        cases heq
        rw [(ih (read ++ ['\''])).1 p.1 p.2 hp, List.append_assoc, List.singleton_append]
      · intro h
        exact (ih (read ++ ['\''])).2 (Option.map_eq_none_iff.mp h)
  | case3 cs hcs =>
      rw [readLiteral.eq_3 cs hcs]
      constructor
      · intro x rest h
        cases h
        rw [List.append_nil]
        rfl
      · intro h
        cases h
  | case4 c cs h₁ h₂ ih =>
      have hc : c ≠ '\'' := h₂
      have hrun : (⟨tokens, .quoted .single read, k⟩ : Lexer).run (c :: cs) =
          (⟨tokens, .quoted .single (read ++ [c]), k⟩ : Lexer).run cs :=
        congrArg (Lexer.run · cs) (if_neg hc)
      rw [hrun, readLiteral.eq_4 c cs h₁ h₂]
      constructor
      · intro x rest h
        obtain ⟨p, hp, heq⟩ := Option.map_eq_some_iff.mp h
        cases heq
        rw [(ih (read ++ [c])).1 p.1 p.2 hp, List.append_assoc, List.singleton_append]
      · intro h
        exact (ih (read ++ [c])).2 (Option.map_eq_none_iff.mp h)

/-- Every quote in a string takes two characters of its text, and the last one closes it. -/
theorem length_of_readLiteral {cs x rest : List Char} (h : readLiteral cs = some (x, rest)) :
    cs.length = x.length + x.count '\'' + 1 + rest.length ∧ rest.head? ≠ some '\'' := by
  induction cs using readLiteral.induct generalizing x with
  | case1 => cases h
  | case2 cs ih =>
      rw [readLiteral] at h
      obtain ⟨p, hp, heq⟩ := Option.map_eq_some_iff.mp h
      cases heq
      obtain ⟨hlength, hhead⟩ := ih hp
      refine ⟨?_, hhead⟩
      rw [List.length_cons, List.length_cons, hlength, List.length_cons, List.count_cons_self]
      omega
  | case3 cs hcs =>
      rw [readLiteral.eq_3 cs hcs] at h
      cases h
      refine ⟨?_, ?_⟩
      · rw [List.length_cons, List.length_nil, List.count_nil]
        omega
      · intro hhead
        cases rest with
        | nil => cases hhead
        | cons c rest =>
            cases hhead
            exact hcs rest rfl
  | case4 c cs h₁ h₂ ih =>
      rw [readLiteral.eq_4 c cs h₁ h₂] at h
      obtain ⟨p, hp, heq⟩ := Option.map_eq_some_iff.mp h
      cases heq
      obtain ⟨hlength, hhead⟩ := ih hp
      refine ⟨?_, hhead⟩
      have hc : c ≠ '\'' := h₂
      rw [List.length_cons, hlength, List.length_cons, List.count_cons_of_ne hc]
      omega

/-- The string that was closed is among the tokens. -/
theorem literal_of_closed {tokens all : List Token} {x rest : List Char} {k : ℕ}
    (hrest : rest.head? ≠ some '\'')
    (h : ((⟨tokens, .closed .single x, k⟩ : Lexer).run rest).finish = some all) :
    tokens ++ [.literal (String.ofList x)] <+: all := by
  cases rest with
  | nil =>
      cases h
      exact List.prefix_refl _
  | cons c rest =>
      have hc : c ≠ '\'' := by
        intro heq
        exact hrest (congrArg some heq)
      have hstep : (⟨tokens, .closed .single x, k⟩ : Lexer).step c =
          start ⟨tokens ++ [.literal (String.ofList x)], .between, k⟩ c := if_neg hc
      rw [run_cons, hstep] at h
      exact (run_isPrefix _ rest).trans (finish_isPrefix h)

/-- A text without quotes is one string between two. -/
theorem finish_of_plain (tokens : List Token) (k : ℕ) {s : List Char}
    (h : '\'' ∉ s) :
    ((⟨tokens, .quoted .single [], k⟩ : Lexer).run (s ++ ['\''])).finish =
      some (tokens ++ [.literal (String.ofList s)]) := by
  rw [(run_quoted tokens [] (s ++ ['\'']) k).1 s [] (readLiteral_of_plain h)]
  rfl

/-- Between two quotes some string is read first, and it is not the text if that has a quote. -/
theorem literal_of_finish {tokens all : List Token} {s : List Char} {k : ℕ}
    (h : ((⟨tokens, .quoted .single [], k⟩ : Lexer).run (s ++ ['\''])).finish = some all) :
    ∃ x, tokens ++ [.literal (String.ofList x)] <+: all ∧ (x = s → '\'' ∉ s) := by
  cases hread : readLiteral (s ++ ['\'']) with
  | none =>
      obtain ⟨r, hr⟩ := (run_quoted tokens [] (s ++ ['\'']) k).2 hread
      rw [hr] at h
      cases h
  | some p =>
      obtain ⟨x, rest⟩ := p
      obtain ⟨hlength, hhead⟩ := length_of_readLiteral hread
      rw [(run_quoted tokens [] (s ++ ['\'']) k).1 x rest hread, List.nil_append] at h
      refine ⟨x, literal_of_closed hhead h, ?_⟩
      intro hx
      rw [hx, List.length_append, List.length_singleton] at hlength
      exact List.count_eq_zero.mp (by omega)

end Lexer

end Foundation.SqlText
