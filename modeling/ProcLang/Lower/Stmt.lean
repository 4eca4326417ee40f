import ProcLang.Lower.Expr

/-!
# Statements

`Stmt.lower` adds the instructions of a statement, or declares what a declaration declares, and
gives the statement with the types of its expressions filled in. Assignments and calls compute a
value; a procedure whose body ends without a `return` gives back the value computed last.

A condition that is wrong does not keep the statements under it from being checked: the branch is
then taken as if it always held, and the loop as if it never did.
-/

namespace ProcLang

namespace Lower

/-! ## Declarations -/

/-- The type that a type mark stands for. Only the types of the language are supported. -/
def resolveType (mark : TypeMark) : Except LowerCause Ty :=
  match mark with
  | .builtin ty => .ok ty
  | mark => .error (.unsupportedType mark)

/-- The length of an array with a bound. -/
def arrayLength (name : String) (bound : Int) : Except LowerCause Nat :=
  if 0 < bound ∧ bound ≤ 0xFFFFFFFF then .ok bound.toNat else .error (.arrayBounds name bound)

/-- The length of an array, or none for a single value. -/
def lengthOf (name : String) (bound : Option Int) : Except LowerCause (Option Nat) :=
  match bound with
  | none => .ok none
  | some bound => some <$> arrayLength name bound

/-- The kind of a variable with a length. -/
def variableKind : Option Nat → SymbolKind
  | none => .variable
  | some len => .array len

/-- The form in which a variable with a length is kept. -/
def storageType (ty : Ty) : Option Nat → Ir.Ty
  | none => ty.ir
  | some len => ty.irArray len

/-- Makes room for a global variable. If the module has its name already, it gets a unique one. -/
def globalStorage (line : Nat) (name : String) (storage : Ir.Ty) (ty : Ty) (kind : SymbolKind) :
    Lower (Option Symbol) := do
  match ← build (.globalVariable name storage) with
  | .ok binding => return some { name, binding, ty, kind }
  | .error _ =>
    let unique ← uniqueName name
    match ← build (.globalVariable unique storage) with
    | .ok binding => return some { name, binding, ty, kind, moduleName := some unique }
    | .error error => report line (.nameTaken error)

/-- Makes room for a variable and gives its symbol. -/
def storage (decl : VariableDecl) (ty : Ty) (len : Option Nat) : Lower (Option Symbol) := do
  let kind := variableKind len
  let storage := storageType ty len
  if decl.isGlobal then
    globalStorage decl.line decl.name storage ty kind
  else
    let binding ← build (.alloca storage decl.name)
    return some { name := decl.name, binding, ty, kind }

/-- Declares a variable. Nothing changes if the declaration is wrong. -/
def declareVariable (decl : VariableDecl) : Lower (Option Unit) := do
  match ← orReport decl.line (resolveType decl.mark) with
  | none => return none
  | some ty =>
    if (← get).symbols.isDeclared decl.name decl.isGlobal then
      report decl.line (.symbol (.duplicate decl.name))
    else
      match ← orReport decl.line (lengthOf decl.name decl.bound) with
      | none => return none
      | some len =>
        match ← storage decl ty len with
        | none => return none
        | some symbol => declare decl.line symbol decl.isGlobal

/-! ## Control flow -/

/-- Lowers a condition whose expression is lowered. An integer holds if it is not zero. -/
def condition (line : Nat) (value : Result) : Lower (Option Ir.Value) := do
  match value with
  | none => return none
  | some (value, .bool) => return some value
  | some (value, .integer) => some <$> build (.icmp .ne value (.int 0) "cond")
  | some (_, ty) => report line (.conditionType ty)

/-- Passes control on to a block, unless the current block has ended. Says whether it had. -/
def fallThrough (target : Ir.Cursor) : Lower Bool := do
  if ← build .isTerminated then
    return true
  else
    build (.br target)
    return false

/-- Passes control to one of two blocks by a condition, or to a fixed one if the condition is
wrong. -/
def branchOn (cond : Option Ir.Value) (yes no otherwise : Ir.Cursor) : Lower Unit :=
  match cond with
  | some cond => build (.condBr cond yes no)
  | none => build (.br otherwise)

/-- Ends the current block by returning a value, if there is one. -/
def returnValue (value : Option Ir.Value) : Lower Unit :=
  match value with
  | some value => build (.ret value)
  | none => build .unreachable

/-- A value as the result of a procedure. -/
def asResult (line : Nat) (ret : Ty) (value : Ir.Value) (ty : Ty) : Lower (Option Ir.Value) :=
  if ty.fits ret then
    some <$> coerce value ty ret
  else
    report line (.returnType ret ty)

/-- Returns from a procedure with the value that was computed last. -/
def implicitReturn (line : Nat) (name : String) (ret : Ty) (last : Result) : Lower Unit := do
  let value ←
    match last with
    | some (value, ty) => asResult line ret value ty
    | none => report line (.missingReturn name)
  returnValue value

/-! ## Assignments -/

/-- Stores a value in a variable. The symbol table has to accept the type of the value. -/
def assignTo (line : Nat) (dest : Place) (value : Ir.Value) (ty : Ty) :
    Lower (Result × Place) := do
  match ← orReport dest.line ((← get).resolveVariable dest.name) with
  | none => return (none, dest)
  | some symbol =>
    let assigned := if ty.fits symbol.ty then symbol.ty else ty
    match (← get).symbols.update { symbol with ty := assigned } with
    | .error error => return (← report line (.symbol error), dest)
    | .ok symbols =>
      modify fun s => { s with symbols }
      let value ← coerce value ty symbol.ty
      let (address, dest) ← dest.lower symbol
      match address with
      | none => return (none, dest)
      | some address =>
        build (.store value address)
        return (some (value, symbol.ty), dest)

/-- Lowers an assignment: the value first, and then the place. -/
def assign (line : Nat) (dest : Place) (value : Expr) : Lower (Result × Place × Expr) := do
  let (result, value) ← value.lower
  match result with
  | none => return (none, dest, value)
  | some (v, ty) =>
    let (result, dest) ← assignTo line dest v ty
    return (result, dest, value)

/-! ## Procedures -/

/-- The name of a parameter in the module. It is no name that the function hands out. -/
def argName (name : String) : String :=
  name ++ ".arg"

/-- The parameters of a procedure with their types, if all are right. Every wrong one is
recorded. -/
def resolveParams : List VariableDecl → Lower (Option (List (VariableDecl × ParamShape)))
  | [] => return some []
  | decl :: decls => do
    let ty ← orReport decl.line (resolveType decl.mark)
    let len ← orReport decl.line (lengthOf decl.name decl.bound)
    let rest ← resolveParams decls
    match ty, len, rest with
    | some ty, some len, some rest => return some ((decl, ⟨ty, len⟩) :: rest)
    | _, _, _ => return none

/-- A procedure that was declared and whose body can be lowered. -/
structure Opened where
  entry : Ir.Cursor
  ret : Ty
  params : List (VariableDecl × ParamShape)

/-- Declares a procedure and defines its function, which is still empty. Nothing changes if the
heading is wrong. -/
def openProcedure (line : Nat) (heading : Heading) : Lower (Option Opened) := do
  let ret ← orReport line (resolveType heading.result)
  let params ← resolveParams heading.params
  match ret, params with
  | some ret, some params =>
    if (← get).symbols.isDeclared heading.name heading.isGlobal then
      report line (.symbol (.duplicate heading.name))
    else
      let irName := (← get).symbols.qualifiedName heading.name
      let irParams := params.map fun (decl, shape) =>
        ({ name := argName decl.name, ty := shape.passed } : Ir.Param)
      match ← build (.defineFunction irName ret.ir irParams) with
      | .error error => report line (.nameTaken error)
      | .ok entry =>
        let symbol : Symbol :=
          { name := heading.name
            binding := .address irName
            ty := ret
            kind := .procedure (params.map Prod.snd)
            moduleName := some irName }
        match ← declare line symbol heading.isGlobal with
        | none => return none
        | some () => return some { entry, ret, params }
  | _, _ => return none

/-- Declares a parameter in the scope of its procedure. A single value is copied to storage of its
own, an array is used where it is. -/
def bindParam (decl : VariableDecl) (shape : ParamShape) : Lower Unit := do
  let name := argName decl.name
  let binding ←
    match shape.len with
    | some _ => pure (Ir.Value.register .ptr name)
    | none => do
      let slot ← build (.alloca shape.ty.ir decl.name)
      build (.store (.register shape.ty.ir name) slot)
      pure slot
  let _ ← declare decl.line
    { name := decl.name, binding, ty := shape.ty, kind := variableKind shape.len } false

/-- Declares the parameters of a procedure. -/
def bindParams : List (VariableDecl × ParamShape) → Lower Unit
  | [] => return ()
  | (decl, shape) :: rest => do
    bindParam decl shape
    bindParams rest

/-- Lowers a procedure that was declared, given how to lower its body. -/
def procedure {α : Type} (line : Nat) (name : String) (opened : Opened)
    (body : Lower (Result × α)) : Lower α := do
  let saved := (← get).builder.cursor
  build (.moveTo opened.entry)
  openScope name (.procedure opened.ret)
  bindParams opened.params
  let (last, a) ← body
  unless ← build .isTerminated do
    implicitReturn line name opened.ret last
  closeScope
  build (.restore saved)
  return a

/-- Lowers a `return` in a procedure. -/
def returnFrom (line : Nat) (ret : Ty) (value : Result) : Lower Unit := do
  match value with
  | some (value, ty) => returnValue (← asResult line ret value ty)
  | none => returnValue none

end Lower

/-! ## Statements -/

mutual

/-- Lowers a statement. -/
def Stmt.lower : Stmt → Lower (Result × Stmt)
  | .assign dest value line => do
    let (result, dest, value) ← Lower.assign line dest value
    return (result, .assign dest value line)
  | .call call line => do
    let (result, call) ← call.lower
    return (result, .call call line)
  | .declare decl line => do
    let _ ← Lower.declareVariable decl
    return (none, .declare decl line)
  | .declareType name mark isGlobal line => do
    Lower.warn line ("type declaration " ++ name ++ " is ignored")
    return (none, .declareType name mark isGlobal line)
  | .branch cond yes none line => do
    let (value, lowered) ← cond.lower
    let test ← Lower.condition cond.line value
    let yesBlock ← Lower.build (.appendBlock "then")
    let merge ← Lower.build (.appendBlock "merge")
    Lower.branchOn test yesBlock merge yesBlock
    Lower.build (.moveTo yesBlock)
    let (_, yes) ← lowerBlock none yes
    let _ ← Lower.fallThrough merge
    Lower.build (.moveTo merge)
    return (none, .branch lowered yes none line)
  | .branch cond yes (some no) line => do
    let (value, lowered) ← cond.lower
    let test ← Lower.condition cond.line value
    let yesBlock ← Lower.build (.appendBlock "then")
    let noBlock ← Lower.build (.appendBlock "else")
    let merge ← Lower.build (.appendBlock "merge")
    Lower.branchOn test yesBlock noBlock yesBlock
    Lower.build (.moveTo yesBlock)
    let (_, yes) ← lowerBlock none yes
    let yesEnded ← Lower.fallThrough merge
    Lower.build (.moveTo noBlock)
    let (_, no) ← lowerBlock none no
    let noEnded ← Lower.fallThrough merge
    Lower.build (.moveTo merge)
    if yesEnded && noEnded then
      Lower.build .unreachable
    return (none, .branch lowered yes (some no) line)
  | .loop dest value cond body line => do
    let (_, dest, value) ← Lower.assign line dest value
    let condBlock ← Lower.build (.appendBlock "loop.cond")
    let bodyBlock ← Lower.build (.appendBlock "loop.body")
    let endBlock ← Lower.build (.appendBlock "loop.end")
    Lower.build (.br condBlock)
    Lower.build (.moveTo condBlock)
    let (result, lowered) ← cond.lower
    let test ← Lower.condition cond.line result
    Lower.branchOn test bodyBlock endBlock endBlock
    Lower.build (.moveTo bodyBlock)
    let (_, body) ← lowerBlock none body
    let _ ← Lower.fallThrough condBlock
    Lower.build (.moveTo endBlock)
    return (none, .loop dest value lowered body line)
  | .result value line => do
    match (← get).returnType? with
    | none => return (← Lower.report line .returnOutsideProcedure, .result value line)
    | some ret =>
      if ← Lower.build .isTerminated then
        return (← Lower.report line .returnAfterEnd, .result value line)
      else
        let (result, value) ← value.lower
        Lower.returnFrom line ret result
        return (none, .result value line)
  | .procedure heading body line => do
    match ← Lower.openProcedure line heading with
    | none => return (none, .procedure heading body line)
    | some opened =>
      let body ← Lower.procedure line heading.name opened (lowerBlock none body)
      return (none, .procedure heading body line)

/-- Lowers statements in order, and gives the value computed last, if any. The value computed before
them is given too. -/
def lowerBlock (last : Result) : List Stmt → Lower (Result × List Stmt)
  | [] => return (last, [])
  | stmt :: stmts => do
    let (result, stmt) ← stmt.lower
    let (last, stmts) ← lowerBlock (result.or last) stmts
    return (last, stmt :: stmts)

end

end ProcLang
