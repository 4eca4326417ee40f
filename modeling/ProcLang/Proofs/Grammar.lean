import ProcLang.Parser.Program

/-!
# The grammar

What a text has to look like, said without a parser. A rule of the grammar relates a list of
terminals to the tree that it stands for; trees are compared without their lines. The rules follow
the grammar of `Tree.lean` from the inside out. Where a rule goes back to one further out, it takes
that one as an argument, and `Grammar.IsExpr` and `Grammar.IsItem` close the circle.

Operators of one level are a repetition in the grammar, and its operands are grouped to the left
(`Grammar.joined`). Integers have to fit: those of expressions, with the minus sign in front of
them, 32 bits with a sign, and those of bounds 63 bits.
-/

namespace ProcLang

/-- What the grammar sees of a token: its kind, and for a name or a literal what it stands for. -/
inductive Terminal where
  | sym (kind : TokenKind)
  | name (name : String)
  | integer (value : Nat)
  | float (value : Binary32)
  | string (value : String)
deriving DecidableEq

/-- The kind of token that a terminal is. -/
def Terminal.kind : Terminal → TokenKind
  | sym kind => kind
  | name _ => .identifier
  | integer _ => .integer
  | float _ => .float
  | string _ => .string

/-- What the grammar sees of a token. -/
def Token.terminal (t : Token) : Terminal :=
  match t.kind with
  | .identifier => .name (String.ofList t.text)
  | .integer => .integer (Literal.digitsValue t.text)
  | .float => .float (Literal.floatValue t.text)
  | .string => .string (String.ofList (Literal.stringValue t.text))
  | kind => .sym kind

/-! ## Trees without lines -/

mutual

/-- An expression without its lines. -/
def Expr.unlined : Expr → Expr
  | .literal value _ ty => .literal value 0 ty
  | .read place _ ty => .read place.unlined 0 ty
  | .not operand _ ty => .not operand.unlined 0 ty
  | .binary op lhs rhs _ ty => .binary op lhs.unlined rhs.unlined 0 ty
  | .call callee args _ ty => .call callee (argsUnlined args) 0 ty

/-- A place without its lines. -/
def Place.unlined : Place → Place
  | .whole name negated _ => .whole name negated 0
  | .element name index negated _ => .element name index.unlined negated 0

/-- Arguments without their lines. -/
def argsUnlined : List Expr → List Expr
  | [] => []
  | arg :: args => arg.unlined :: argsUnlined args

end

/-- A declaration without its line. -/
def VariableDecl.unlined (decl : VariableDecl) : VariableDecl :=
  { decl with line := 0 }

/-- A heading without its lines. -/
def Heading.unlined (heading : Heading) : Heading :=
  { heading with params := heading.params.map VariableDecl.unlined }

mutual

/-- A statement without its lines. -/
def Stmt.unlined : Stmt → Stmt
  | .assign dest value _ => .assign dest.unlined value.unlined 0
  | .declare decl _ => .declare decl.unlined 0
  | .declareType name mark isGlobal _ => .declareType name mark isGlobal 0
  | .branch cond yes none _ => .branch cond.unlined (blockUnlined yes) none 0
  | .branch cond yes (some no) _ =>
    .branch cond.unlined (blockUnlined yes) (some (blockUnlined no)) 0
  | .loop dest value cond body _ =>
    .loop dest.unlined value.unlined cond.unlined (blockUnlined body) 0
  | .result value _ => .result value.unlined 0
  | .procedure heading body _ => .procedure heading.unlined (blockUnlined body) 0
  | .call call _ => .call call.unlined 0

/-- Statements without their lines. -/
def blockUnlined : List Stmt → List Stmt
  | [] => []
  | stmt :: stmts => stmt.unlined :: blockUnlined stmts

end

/-- A program without its lines. -/
def Program.unlined (program : Program) : Program :=
  { program with
    declarations := blockUnlined program.declarations
    statements := blockUnlined program.statements }

theorem argsUnlined_eq_map : ∀ args : List Expr, argsUnlined args = args.map Expr.unlined
  | [] => rfl
  | arg :: args => by rw [argsUnlined, argsUnlined_eq_map args, List.map_cons]

theorem blockUnlined_eq_map : ∀ stmts : List Stmt, blockUnlined stmts = stmts.map Stmt.unlined
  | [] => rfl
  | stmt :: stmts => by rw [blockUnlined, blockUnlined_eq_map stmts, List.map_cons]

theorem Stmt.unlined_branch (cond : Expr) (yes : List Stmt) (no : Option (List Stmt))
    (line : Nat) : (Stmt.branch cond yes no line).unlined =
      .branch cond.unlined (yes.map Stmt.unlined) (no.map (·.map Stmt.unlined)) 0 := by
  cases no <;> simp only [unlined, blockUnlined_eq_map, Option.map_none, Option.map_some]

namespace Grammar

/-- A rule: which trees a list of terminals may stand for. -/
abbrev Rule (α : Type) := List Terminal → α → Prop

/-! ## Repetition -/

section Repetition

variable {α : Type}

/-- `x { "," x }` -/
inductive Separated (x : Rule α) : Rule (List α)
  | one {ts : List Terminal} {a : α} : x ts a → Separated x ts [a]
  | more {ts us : List Terminal} {a : α} {as : List α} : x ts a → Separated x us as →
      Separated x (ts ++ .sym .comma :: us) (a :: as)

/-- `[ x { "," x } ]` -/
inductive Listed (x : Rule α) : Rule (List α)
  | none : Listed x [] []
  | some {ts : List Terminal} {as : List α} : Separated x ts as → Listed x ts as

/-- `{ x ";" }` -/
inductive Repeated (x : Rule α) : Rule (List α)
  | nil : Repeated x [] []
  | cons {ts us : List Terminal} {a : α} {as : List α} : x ts a → Repeated x us as →
      Repeated x (ts ++ .sym .semicolon :: us) (a :: as)

end Repetition

/-! ## Expressions -/

/-- Operators of a level, each with an operand behind it. -/
inductive Links (level : Level) (operand : Rule Expr) : Rule (List (BinaryOp × Expr))
  | nil : Links level operand [] []
  | cons {kind : TokenKind} {op : BinaryOp} {ts us : List Terminal} {e : Expr}
      {links : List (BinaryOp × Expr)} : level.op? kind = some op → operand ts e →
      Links level operand us links →
      Links level operand (.sym kind :: ts ++ us) ((op, e) :: links)

/-- Operands joined by operators, from the left. -/
def joined (first : Expr) (links : List (BinaryOp × Expr)) : Expr :=
  links.foldl (fun lhs link => .binary link.1 lhs link.2 0 none) first

/-- `operand { operator operand }` -/
inductive Chain (level : Level) (operand : Rule Expr) : Rule Expr
  | intro {ts us : List Terminal} {first : Expr} {links : List (BinaryOp × Expr)} :
      operand ts first → Links level operand us links →
      Chain level operand (ts ++ us) (joined first links)

/-- `[ "not" ] sum` -/
inductive Negation (sum : Rule Expr) : Rule Expr
  | plain {ts : List Terminal} {e : Expr} : sum ts e → Negation sum ts e
  | not {ts : List Terminal} {e : Expr} : sum ts e →
      Negation sum (.sym .kwNot :: ts) (.not e 0 none)

/-- `name [ "[" expr "]" ]`, in front of which a minus sign may stand. -/
inductive IsPlace (expr : Rule Expr) (negated : Bool) : Rule Place
  | whole {x : String} : IsPlace expr negated [.name x] (.whole x negated 0)
  | element {x : String} {ts : List Terminal} {index : Expr} : expr ts index →
      IsPlace expr negated (.name x :: .sym .lBracket :: ts ++ [.sym .rBracket])
        (.element x index negated 0)

/-- `name "(" [ expr { "," expr } ] ")"` -/
inductive IsCall (expr : Rule Expr) : Rule Expr
  | intro {x : String} {ts : List Terminal} {args : List Expr} : Listed expr ts args →
      IsCall expr (.name x :: .sym .lParen :: ts ++ [.sym .rParen]) (.call x args 0 none)

/-- An integer or a float, in front of which a minus sign may stand. -/
inductive IsNumber : (negated : Bool) → Rule Literal
  | integer {n : Nat} : n ≤ 0x7FFFFFFF → IsNumber false [.integer n] (.integer n)
  | negative {n : Nat} : n ≤ 0x80000000 → IsNumber true [.integer n] (.integer (-n))
  | float {x : Binary32} : IsNumber false [.float x] (.float x)
  | negativeFloat {x : Binary32} : IsNumber true [.float x] (.float x.neg)

/-- `"(" expr ")" | call | [ "-" ] place | [ "-" ] number | string | "true" | "false"` -/
inductive Factor (expr : Rule Expr) : Rule Expr
  | paren {ts : List Terminal} {e : Expr} : expr ts e →
      Factor expr (.sym .lParen :: ts ++ [.sym .rParen]) e
  | call {ts : List Terminal} {e : Expr} : IsCall expr ts e → Factor expr ts e
  | read {ts : List Terminal} {place : Place} : IsPlace expr false ts place →
      Factor expr ts (.read place 0 none)
  | minusRead {ts : List Terminal} {place : Place} : IsPlace expr true ts place →
      Factor expr (.sym .minus :: ts) (.read place 0 none)
  | number {ts : List Terminal} {value : Literal} : IsNumber false ts value →
      Factor expr ts (.literal value 0 none)
  | minusNumber {ts : List Terminal} {value : Literal} : IsNumber true ts value →
      Factor expr (.sym .minus :: ts) (.literal value 0 none)
  | string {x : String} : Factor expr [.string x] (.literal (.string x) 0 none)
  | true : Factor expr [.sym .kwTrue] (.literal (.bool true) 0 none)
  | false : Factor expr [.sym .kwFalse] (.literal (.bool false) 0 none)

/-- **Expressions**: the levels of operators from the loosest to the tightest. -/
inductive IsExpr : Rule Expr
  | intro {ts : List Terminal} {e : Expr} :
      Chain .logic (Negation (Chain .sum (Chain .relation (Chain .product (Factor IsExpr))))) ts e →
      IsExpr ts e

/-! ## Declarations and statements -/

/-- A name. -/
inductive IsName : Rule String
  | intro {x : String} : IsName [.name x] x

/-- `[ "[" [ "-" ] integer "]" ]` -/
inductive IsBound : Rule (Option Int)
  | none : IsBound [] none
  | some {n : Nat} : n < 0x8000000000000000 →
      IsBound [.sym .lBracket, .integer n, .sym .rBracket] (some n)
  | negative {n : Nat} : n < 0x8000000000000000 →
      IsBound [.sym .lBracket, .sym .minus, .integer n, .sym .rBracket] (some (-n))

/-- `type | name | "enum" "{" name { "," name } "}"` -/
inductive IsMark : Rule TypeMark
  | builtin {kind : TokenKind} {ty : Ty} : kind.type? = some ty → IsMark [.sym kind] (.builtin ty)
  | named {x : String} : IsMark [.name x] (.named x)
  | enum {ts : List Terminal} {variants : List String} : Separated IsName ts variants →
      IsMark (.sym .kwEnum :: .sym .lBrace :: ts ++ [.sym .rBrace]) (.enum variants)

/-- `"variable" name ":" mark [ bound ] | type name [ bound ]` -/
inductive IsVariable (isGlobal : Bool) : Rule VariableDecl
  | long {x : String} {ts us : List Terminal} {mark : TypeMark} {bound : Option Int} :
      IsMark ts mark → IsBound us bound →
      IsVariable isGlobal (.sym .kwVariable :: .name x :: .sym .colon :: ts ++ us)
        ⟨x, mark, isGlobal, bound, 0⟩
  | short {kind : TokenKind} {ty : Ty} {x : String} {us : List Terminal} {bound : Option Int} :
      kind.type? = some ty → IsBound us bound →
      IsVariable isGlobal (.sym kind :: .name x :: us) ⟨x, .builtin ty, isGlobal, bound, 0⟩

/-- `place ":=" expr` -/
inductive IsAssignment : Rule (Place × Expr)
  | intro {ts us : List Terminal} {dest : Place} {value : Expr} : IsPlace IsExpr false ts dest →
      IsExpr us value → IsAssignment (ts ++ .sym .assign :: us) (dest, value)

/-- What a declaration declares, given what the items of a section are. -/
inductive Declared (item : Section → Rule Stmt) (isGlobal : Bool) : Rule Stmt
  | variable {ts : List Terminal} {decl : VariableDecl} : IsVariable isGlobal ts decl →
      Declared item isGlobal ts (.declare decl 0)
  | type {x : String} {ts : List Terminal} {mark : TypeMark} : IsMark ts mark →
      Declared item isGlobal (.sym .kwType :: .name x :: .sym .kwIs :: ts)
        (.declareType x mark isGlobal 0)
  | procedure {x : String} {ts us vs ws : List Terminal} {result : TypeMark}
      {params : List VariableDecl} {locals body : List Stmt} : IsMark ts result →
      Listed (IsVariable false) us params → Repeated (item .declarations) vs locals →
      Repeated (item .statements) ws body →
      Declared item isGlobal
        (.sym .kwProcedure :: .name x :: .sym .colon :: ts ++ .sym .lParen :: us ++
          .sym .rParen :: vs ++ .sym .kwBegin :: ws ++ [.sym .kwEnd, .sym .kwProcedure])
        (.procedure ⟨x, result, params, isGlobal⟩ (locals ++ body) 0)

/-- `[ "global" ] ( procedure | variable | "type" name "is" mark )` -/
inductive Declaration (item : Section → Rule Stmt) : Rule Stmt
  | inner {ts : List Terminal} {stmt : Stmt} : Declared item false ts stmt →
      Declaration item ts stmt
  | global {ts : List Terminal} {stmt : Stmt} : Declared item true ts stmt →
      Declaration item (.sym .kwGlobal :: ts) stmt

/-- `[ "else" { statement ";" } ]` -/
inductive Alternative (item : Section → Rule Stmt) : Rule (Option (List Stmt))
  | none : Alternative item [] none
  | some {ts : List Terminal} {no : List Stmt} : Repeated (item .statements) ts no →
      Alternative item (.sym .kwElse :: ts) (some no)

/-- A statement, which may be a declaration too. -/
inductive Statement (item : Section → Rule Stmt) : Rule Stmt
  | assign {ts : List Terminal} {dest : Place} {value : Expr} : IsAssignment ts (dest, value) →
      Statement item ts (.assign dest value 0)
  | declaration {ts : List Terminal} {stmt : Stmt} : Declaration item ts stmt →
      Statement item ts stmt
  | call {ts : List Terminal} {e : Expr} : IsCall IsExpr ts e → Statement item ts (.call e 0)
  | result {ts : List Terminal} {e : Expr} : IsExpr ts e →
      Statement item (.sym .kwReturn :: ts) (.result e 0)
  | branch {ts us vs : List Terminal} {cond : Expr} {yes : List Stmt} {no : Option (List Stmt)} :
      IsExpr ts cond → Repeated (item .statements) us yes → Alternative item vs no →
      Statement item
        (.sym .kwIf :: .sym .lParen :: ts ++ .sym .rParen :: .sym .kwThen :: us ++ vs ++
          [.sym .kwEnd, .sym .kwIf])
        (.branch cond yes no 0)
  | loop {ts us vs : List Terminal} {dest : Place} {value cond : Expr} {body : List Stmt} :
      IsAssignment ts (dest, value) → IsExpr us cond → Repeated (item .statements) vs body →
      Statement item
        (.sym .kwFor :: .sym .lParen :: ts ++ .sym .semicolon :: us ++ .sym .rParen :: vs ++
          [.sym .kwEnd, .sym .kwFor])
        (.loop dest value cond body 0)

/-- **The items of a section**: declarations, or statements. -/
inductive IsItem : Section → Rule Stmt
  | declaration {ts : List Terminal} {stmt : Stmt} : Declaration IsItem ts stmt →
      IsItem .declarations ts stmt
  | statement {ts : List Terminal} {stmt : Stmt} : Statement IsItem ts stmt →
      IsItem .statements ts stmt

/-- **Programs.** -/
inductive IsProgram : Rule Program
  | intro {x : String} {ts us : List Terminal} {declarations statements : List Stmt} :
      Repeated (IsItem .declarations) ts declarations →
      Repeated (IsItem .statements) us statements →
      IsProgram
        (.sym .kwProgram :: .name x :: .sym .kwIs :: ts ++ .sym .kwBegin :: us ++
          [.sym .kwEnd, .sym .kwProgram, .sym .period])
        ⟨x, declarations, statements⟩

end Grammar

end ProcLang
