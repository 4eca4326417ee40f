import ProcLang.Proofs.Grammar.Program
import ProcLang.Proofs.Meaning.Range
import ProcLang.Proofs.Spelling

/-!
# Expressions written down

`Expr.written` gives the terminals of an expression, with parentheses only where the operators ask
for them: a left operand may bind as loosely as its operator, a right operand has to bind more
tightly, and so has the operand of `not`. What is written so is an expression of the grammar
(`written_atRank`), and any text that lays out these terminals is read as the same expression
(`parse_written`).
-/

namespace ProcLang

open Grammar

variable {ts us : List Terminal} {rhs : Expr}

/-! ## Terminals of an expression -/

/-- The level of an operator. -/
def BinaryOp.level : BinaryOp → Level
  | and | or => .logic
  | add | sub => .sum
  | less | lessEq | greater | greaterEq | eq | notEq => .relation
  | mul | div => .product

/-- The token of an operator. -/
def BinaryOp.kind : BinaryOp → TokenKind
  | and => .amp
  | or => .pipe
  | add => .plus
  | sub => .minus
  | mul => .star
  | div => .slash
  | less => .less
  | lessEq => .lessEq
  | greater => .greater
  | greaterEq => .greaterEq
  | eq => .eqEq
  | notEq => .notEq

theorem BinaryOp.op?_kind (op : BinaryOp) : op.level.op? op.kind = some op := by
  cases op <;> rfl

/-- How tightly the operators of a level bind. The rank of `not` lies between the first two. -/
def Level.rank : Level → Nat
  | logic => 0
  | sum => 2
  | relation => 3
  | product => 4

/-- How tightly the outermost operator of an expression binds. -/
def Expr.rank : Expr → Nat
  | .binary op _ _ _ _ => op.level.rank
  | .not _ _ _ => 1
  | .literal _ _ _ | .read _ _ _ | .call _ _ _ _ => 5

/-- An operand, in parentheses if it binds less tightly than is asked for. -/
def enclosed (least rank : Nat) (ts : List Terminal) : List Terminal :=
  if rank < least then .sym .lParen :: ts ++ [.sym .rParen] else ts

/-- A minus sign, if there is one. -/
def minusSign (negated : Bool) : List Terminal :=
  if negated then [.sym .minus] else []

/-- The terminals of a literal. -/
def Literal.written : Literal → List Terminal
  | integer n => minusSign (decide (n < 0)) ++ [.integer n.natAbs]
  | float x => minusSign x.negative ++ [.float (if x.negative then x.neg else x)]
  | bool b => [.sym (if b then .kwTrue else .kwFalse)]
  | string s => [.string s]

mutual

/-- The terminals of an expression. -/
def Expr.written : Expr → List Terminal
  | .literal value _ _ => value.written
  | .read place _ _ => minusSign place.negated ++ place.written
  | .not operand _ _ => .sym .kwNot :: enclosed 2 operand.rank operand.written
  | .binary op lhs rhs _ _ =>
    enclosed op.level.rank lhs.rank lhs.written ++
      .sym op.kind :: enclosed (op.level.rank + 1) rhs.rank rhs.written
  | .call callee args _ _ => .name callee :: .sym .lParen :: argsWritten args ++ [.sym .rParen]

/-- The terminals of a place, without a minus sign in front of it. -/
def Place.written : Place → List Terminal
  | .whole x _ _ => [.name x]
  | .element x index _ _ => .name x :: .sym .lBracket :: index.written ++ [.sym .rBracket]

/-- The terminals of arguments. -/
def argsWritten : List Expr → List Terminal
  | [] => []
  | [arg] => arg.written
  | arg :: next :: args => arg.written ++ .sym .comma :: argsWritten (next :: args)

end

/-- The literal has a spelling. -/
def Literal.Writable : Literal → Prop
  | integer n => ProcLang.InRange n
  | float x => ∃ whole places : List Char, whole ≠ [] ∧ places ≠ [] ∧
      (∀ d ∈ whole, d.isDigit = true) ∧ (∀ d ∈ places, d.isDigit = true) ∧
      Binary32.Nearest (digitsValue (whole ++ places)) (Nat.pow 10 places.length) x.magnitude
  | bool _ => True
  | string s => s.toList.getLast? ≠ some '\\'

mutual

/-- All literals and names of the expression have spellings, and types are not yet filled in. -/
def Expr.Writable : Expr → Prop
  | .literal value _ ty => value.Writable ∧ ty = none
  | .read place _ ty => place.Writable ∧ ty = none
  | .not operand _ ty => operand.Writable ∧ ty = none
  | .binary _ lhs rhs _ ty => lhs.Writable ∧ rhs.Writable ∧ ty = none
  | .call callee args _ ty => isIdentifier callee = true ∧ ArgsWritable args ∧ ty = none

/-- The name of the place and its index have spellings. -/
def Place.Writable : Place → Prop
  | .whole x _ _ => isIdentifier x = true
  | .element x index _ _ => isIdentifier x = true ∧ index.Writable

/-- The arguments have spellings. -/
def ArgsWritable : List Expr → Prop
  | [] => True
  | arg :: args => arg.Writable ∧ ArgsWritable args

end

/-! ## Every terminal has a spelling -/

/-- All of the terminals have spellings. -/
def Spellable (ts : List Terminal) : Prop :=
  ∀ t ∈ ts, ∃ word, Spelled t word

theorem spellable_append : Spellable (ts ++ us) ↔ Spellable ts ∧ Spellable us :=
  List.forall_mem_append

variable {e : Expr}

theorem spellable_cons {t : Terminal} :
    Spellable (t :: ts) ↔ (∃ word, Spelled t word) ∧ Spellable ts :=
  List.forall_mem_cons

theorem spellable_nil : Spellable [] := fun _ h => absurd h List.not_mem_nil

variable {operand : Rule Expr} {kind : TokenKind} {level : Level}

theorem spelled_char {c : Char} (h : Lexeme.single? c = some kind) (hne : kind ≠ .eof) :
    ∃ word, Spelled (.sym kind) word :=
  ⟨[c], .single h hne⟩

theorem spelled_minus : ∃ word, Spelled (.sym .minus) word :=
  spelled_char (c := '-') rfl (by decide)

theorem spelled_lParen : ∃ word, Spelled (.sym .lParen) word :=
  spelled_char (c := '(') rfl (by decide)

theorem spelled_rParen : ∃ word, Spelled (.sym .rParen) word :=
  spelled_char (c := ')') rfl (by decide)

theorem spelled_name {x : String} (h : isIdentifier x = true) : ∃ word, Spelled (.name x) word :=
  ⟨_, .name h⟩

/-- An operator is written as its symbol. -/
theorem spelled_op (op : BinaryOp) : Spelled (.sym op.kind) op.symbol.toList := by
  cases op with
  | lessEq => exact .pair "<=" (by decide)
  | greaterEq => exact .pair ">=" (by decide)
  | eq => exact .pair "==" (by decide)
  | notEq => exact .pair "!=" (by decide)
  | and => exact .single (c := '&') rfl (by decide)
  | or => exact .single (c := '|') rfl (by decide)
  | add => exact .single (c := '+') rfl (by decide)
  | sub => exact .single (c := '-') rfl (by decide)
  | mul => exact .single (c := '*') rfl (by decide)
  | div => exact .single (c := '/') rfl (by decide)
  | less => exact .single (c := '<') rfl (by decide)
  | greater => exact .single (c := '>') rfl (by decide)

theorem spelled_integer (n : Nat) : ∃ word, Spelled (.integer n) word := by
  have hvalue : Literal.digitsValue (Nat.toDigits 10 n) = n := by
    have hdigits : Nat.ofDigitChars 10 (Nat.toDigits 10 n) 0 = n :=
      Nat.ofDigitChars_toDigits (by decide) (by decide)
    rwa [Nat.ofDigitChars_eq_foldl] at hdigits
  rw [← hvalue]
  exact ⟨_, .integer Nat.toDigits_ne_nil fun d hd =>
    Nat.isDigit_of_mem_toDigits (by decide) (by decide) hd⟩

theorem minusSign_spellable (negated : Bool) : Spellable (minusSign negated) := by
  cases negated with
  | false => exact spellable_nil
  | true => exact spellable_cons.mpr ⟨spelled_minus, spellable_nil⟩

theorem enclosed_spellable (h : Spellable ts) (least rank : Nat) :
    Spellable (enclosed least rank ts) := by
  unfold enclosed
  split
  · refine spellable_cons.mpr ⟨spelled_lParen, spellable_append.mpr ⟨h, ?_⟩⟩
    exact spellable_cons.mpr ⟨spelled_rParen, spellable_nil⟩
  · exact h

theorem Literal.written_spellable {value : Literal} (h : value.Writable) :
    Spellable value.written := by
  cases value with
  | integer n =>
    refine spellable_append.mpr ⟨minusSign_spellable _, ?_⟩
    exact spellable_cons.mpr ⟨spelled_integer _, spellable_nil⟩
  | float x =>
    refine spellable_append.mpr ⟨minusSign_spellable _, spellable_cons.mpr ⟨?_, spellable_nil⟩⟩
    obtain ⟨whole, places, hne, hne', hwhole, hplaces, hnearest⟩ := h
    refine ⟨_, .float hne hne' hwhole hplaces ?_⟩
    cases hneg : x.negative with
    | false => exact ⟨hneg, hnearest⟩
    | true => exact ⟨congrArg (!·) hneg, hnearest⟩
  | bool b =>
    refine spellable_cons.mpr ⟨?_, spellable_nil⟩
    cases b with
    | false => exact ⟨_, .keyword "false" (by decide)⟩
    | true => exact ⟨_, .keyword "true" (by decide)⟩
  | string s =>
    refine spellable_cons.mpr ⟨?_, spellable_nil⟩
    rw [← String.ofList_toList (s := s)]
    exact ⟨_, .string h⟩

mutual

theorem Expr.written_spellable : ∀ {e : Expr}, e.Writable → Spellable e.written
  | .literal value _ _, h => by
    rw [Expr.written]
    exact Literal.written_spellable h.1
  | .read place _ _, h => by
    rw [Expr.written]
    exact spellable_append.mpr ⟨minusSign_spellable _, Place.written_spellable h.1⟩
  | .not operand _ _, h => by
    rw [Expr.written]
    refine spellable_cons.mpr ⟨⟨_, .keyword "not" (by decide)⟩, ?_⟩
    exact enclosed_spellable (Expr.written_spellable h.1) _ _
  | .binary op lhs rhs _ _, h => by
    rw [Expr.written]
    refine spellable_append.mpr ⟨enclosed_spellable (Expr.written_spellable h.1) _ _, ?_⟩
    refine spellable_cons.mpr ⟨⟨_, spelled_op op⟩, ?_⟩
    exact enclosed_spellable (Expr.written_spellable h.2.1) _ _
  | .call callee args _ _, h => by
    rw [Expr.written]
    refine spellable_cons.mpr ⟨spelled_name h.1, spellable_cons.mpr ⟨spelled_lParen, ?_⟩⟩
    refine spellable_append.mpr ⟨argsWritten_spellable h.2.1, ?_⟩
    exact spellable_cons.mpr ⟨spelled_rParen, spellable_nil⟩

theorem Place.written_spellable : ∀ {place : Place}, place.Writable → Spellable place.written
  | .whole x _ _, h => by
    rw [Place.written]
    exact spellable_cons.mpr ⟨spelled_name h, spellable_nil⟩
  | .element x index _ _, h => by
    rw [Place.written]
    refine spellable_cons.mpr ⟨spelled_name h.1, spellable_cons.mpr ⟨?_, ?_⟩⟩
    · exact spelled_char (c := '[') rfl (by decide)
    · refine spellable_append.mpr ⟨Expr.written_spellable h.2, spellable_cons.mpr ⟨?_, ?_⟩⟩
      · exact spelled_char (c := ']') rfl (by decide)
      · exact spellable_nil

theorem argsWritten_spellable : ∀ {args : List Expr}, ArgsWritable args →
    Spellable (argsWritten args)
  | [], _ => by
    rw [argsWritten]
    exact spellable_nil
  | [arg], h => by
    rw [argsWritten]
    exact Expr.written_spellable h.1
  | arg :: next :: args, h => by
    rw [argsWritten]
    refine spellable_append.mpr ⟨Expr.written_spellable h.1, spellable_cons.mpr ⟨?_, ?_⟩⟩
    · exact spelled_char (c := ',') rfl (by decide)
    · exact argsWritten_spellable h.2

end

namespace Grammar

/-- Expressions whose operators outside parentheses bind at least as tightly as a rank. -/
def AtRank : Nat → Rule Expr
  | 0 => IsExpr
  | 1 => Negation (Chain .sum (Chain .relation (Chain .product (Factor IsExpr))))
  | 2 => Chain .sum (Chain .relation (Chain .product (Factor IsExpr)))
  | 3 => Chain .relation (Chain .product (Factor IsExpr))
  | 4 => Chain .product (Factor IsExpr)
  | _ => Factor IsExpr

theorem chain_one (h : operand ts e) : Chain level operand ts e := by
  have hchain : Chain level operand (ts ++ []) (joined e []) := .intro h .nil
  rwa [List.append_nil] at hchain

theorem links_concat {op : BinaryOp} {links : List (BinaryOp × Expr)}
    (h : Links level operand ts links) (hop : level.op? kind = some op) (hrhs : operand us rhs) :
    Links level operand (ts ++ .sym kind :: us) (links ++ [(op, rhs)]) := by
  induction h with
  | nil =>
    have hlast : Links level operand (.sym kind :: us ++ []) [(op, rhs)] := .cons hop hrhs .nil
    rwa [List.append_nil] at hlast
  | cons hop' he _ ih =>
    rw [List.append_assoc]
    exact .cons hop' he ih

/-- One more operator of the level joins everything in front of it to one more operand. -/
theorem chain_concat {op : BinaryOp} {lhs : Expr} (h : Chain level operand ts lhs)
    (hop : level.op? kind = some op) (hrhs : operand us rhs) :
    Chain level operand (ts ++ .sym kind :: us) (.binary op lhs rhs 0 none) := by
  obtain ⟨hfirst, hlinks⟩ := h
  have hchain := Chain.intro hfirst (links_concat hlinks hop hrhs)
  rwa [joined, List.foldl_append, ← List.append_assoc] at hchain

theorem Listed.separated {α : Type} {x : Rule α} {as : List α} (h : Listed x ts as)
    (hne : as ≠ []) :
    Separated x ts as := by
  cases h with
  | none => exact absurd rfl hne
  | some h => exact h

theorem AtRank.loosen {n : Nat} (h : AtRank (n + 1) ts e) : AtRank n ts e := by
  match n, h with
  | 0, h => exact .intro (chain_one h)
  | 1, h => exact .plain h
  | 2, h => exact chain_one h
  | 3, h => exact chain_one h
  | 4, h => exact chain_one h
  | _ + 5, h => exact h

theorem AtRank.mono {m n : Nat} (h : AtRank n ts e) (hle : m ≤ n) : AtRank m ts e := by
  induction hle with
  | refl => exact h
  | step _ ih => exact ih h.loosen

/-- In parentheses, where they are needed, an expression may stand anywhere. -/
theorem AtRank.enclosed {least rank : Nat} (h : AtRank rank ts e) (hleast : least ≤ 5) :
    AtRank least (ProcLang.enclosed least rank ts) e := by
  unfold ProcLang.enclosed
  split
  · have hparen : AtRank 5 (.sym .lParen :: ts ++ [.sym .rParen]) e :=
      Factor.paren (h.mono (Nat.zero_le _))
    exact hparen.mono hleast
  · exact h.mono (by omega)

theorem AtRank.binary (op : BinaryOp) {lhs : Expr} (hlhs : AtRank op.level.rank ts lhs)
    (hrhs : AtRank (op.level.rank + 1) us rhs) :
    AtRank op.level.rank (ts ++ .sym op.kind :: us) (.binary op lhs rhs 0 none) := by
  have hop := op.op?_kind
  generalize op.level = level at *
  cases level with
  | logic =>
    obtain ⟨hlhs⟩ := hlhs
    exact .intro (chain_concat hlhs hop hrhs)
  | sum | relation | product => exact chain_concat hlhs hop hrhs

end Grammar

theorem Literal.written_factor {value : Literal} (h : value.Writable) :
    Factor IsExpr value.written (.literal value 0 none) := by
  cases value with
  | integer n =>
    have hrange : -0x80000000 ≤ n ∧ n ≤ 0x7FFFFFFF := h
    rw [Literal.written]
    by_cases hn : n < 0
    · rw [decide_eq_true hn]
      have hnumber : IsNumber true [.integer n.natAbs] (.integer (-n.natAbs)) :=
        .negative (by omega)
      rw [show (-n.natAbs : Int) = n by omega] at hnumber
      exact .minusNumber hnumber
    · rw [decide_eq_false hn]
      have hnumber : IsNumber false [.integer n.natAbs] (.integer n.natAbs) :=
        .integer (by omega)
      rw [show (n.natAbs : Int) = n by omega] at hnumber
      exact .number hnumber
  | float x =>
    obtain ⟨negative, magnitude⟩ := x
    cases negative with
    | false => exact .number .float
    | true => exact .minusNumber (.negativeFloat (x := ⟨false, magnitude⟩))
  | bool b =>
    cases b with
    | false => exact .false
    | true => exact .true
  | string s => exact .string

mutual

/-- **What is written for an expression** stands for it in the grammar. -/
theorem written_atRank : ∀ {e : Expr}, e.Writable → AtRank e.rank e.written e.unlined
  | .literal value _ ty, h => by
    obtain ⟨hvalue, rfl⟩ := h
    rw [Expr.written, Expr.unlined]
    exact Literal.written_factor hvalue
  | .read place _ ty, h => by
    obtain ⟨hplace, rfl⟩ := h
    have hread := place_written hplace
    rw [Expr.written, Expr.unlined]
    cases hnegated : place.negated with
    | false =>
      rw [hnegated] at hread
      exact Factor.read hread
    | true =>
      rw [hnegated] at hread
      exact Factor.minusRead hread
  | .not operand _ ty, h => by
    obtain ⟨hoperand, rfl⟩ := h
    rw [Expr.written, Expr.unlined]
    have hsum : AtRank 2 _ _ := (written_atRank hoperand).enclosed (by omega)
    exact Negation.not hsum
  | .binary op lhs rhs _ ty, h => by
    obtain ⟨hlhs, hrhs, rfl⟩ := h
    have hrank : op.level.rank + 1 ≤ 5 := by cases op <;> decide
    rw [Expr.written, Expr.unlined]
    exact AtRank.binary op ((written_atRank hlhs).enclosed (by omega))
      ((written_atRank hrhs).enclosed hrank)
  | .call callee args _ ty, h => by
    obtain ⟨-, hargs, rfl⟩ := h
    rw [Expr.written, Expr.unlined]
    exact Factor.call (.intro (args_written hargs))

theorem place_written : ∀ {place : Place}, place.Writable →
    IsPlace IsExpr place.negated place.written place.unlined
  | .whole x negated _, _ => by
    rw [Place.written, Place.unlined]
    exact .whole
  | .element x index negated _, h => by
    rw [Place.written, Place.unlined]
    exact .element ((written_atRank h.2).mono (Nat.zero_le _))

theorem args_written : ∀ {args : List Expr}, ArgsWritable args →
    Listed IsExpr (argsWritten args) (argsUnlined args)
  | [], _ => by
    rw [argsWritten, argsUnlined]
    exact .none
  | [arg], h => by
    rw [argsWritten, argsUnlined, argsUnlined]
    exact .some (.one ((written_atRank h.1).mono (Nat.zero_le _)))
  | arg :: next :: args, h => by
    have hrest := (args_written h.2).separated (by simp [argsUnlined])
    rw [argsWritten, argsUnlined]
    exact .some (.more ((written_atRank h.1).mono (Nat.zero_le _)) hrest)

end

end ProcLang
