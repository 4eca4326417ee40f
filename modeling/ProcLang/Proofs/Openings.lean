import ProcLang.Lower.Program

/-!
# What comes before the parts of a statement

The parts of a statement are not lowered where the statement starts: blocks are added first, values
computed, scopes opened. The openings say what is done up to a part. Every statement with parts is
lowered by its opening, then the part, then the rest (`assign_eq`, `branch_eq`, `branchElse_eq`,
`loop_eq`, `procedure_eq`). A program ends like a procedure (`finish_eq`). `Lowering.Visits` follows
the lowering of given items into all parts.
-/

namespace ProcLang

namespace Lower

/-- What an assignment does before it looks for the place: the value is computed and made one of the
type of the variable. Gives the symbol of the variable and the value, unless something is wrong. -/
def openAssign (line : Nat) (dest : Place) (value : Expr) :
    Lower (Option (Symbol × Ir.Value) × Expr) := do
  let (result, value) ← value.lower
  match result with
  | none => return (none, value)
  | some (v, ty) =>
    match ← orReport dest.line ((← get).resolveVariable dest.name) with
    | none => return (none, value)
    | some symbol =>
      let assigned := if ty.fits symbol.ty then symbol.ty else ty
      match (← get).symbols.update { symbol with ty := assigned } with
      | .error error => return (← report line (.symbol error), value)
      | .ok symbols =>
        modify fun s => { s with symbols }
        return (some (symbol, ← coerce v ty symbol.ty), value)

/-- Adds a block that only some statements need. -/
def appendIf (needed : Bool) (hint : String) : Lower (Option Ir.Cursor) :=
  if needed then some <$> build (.appendBlock hint) else return none

/-- What a branch does before its first arm. Gives the blocks where control goes if the condition
does not hold, and behind the branch. -/
def openBranch (cond : Expr) (alternative : Bool) : Lower (Expr × Ir.Cursor × Ir.Cursor) := do
  let (value, lowered) ← cond.lower
  let test ← condition cond.line value
  let yes ← build (.appendBlock "then")
  let no ← appendIf alternative "else"
  let merge ← build (.appendBlock "merge")
  branchOn test yes (no.getD merge) yes
  build (.moveTo yes)
  return (lowered, no.getD merge, merge)

/-- The blocks of a loop. -/
structure LoopBlocks where
  cond : Ir.Cursor
  body : Ir.Cursor
  stop : Ir.Cursor

/-- What a loop does before its condition. -/
def openLoop (line : Nat) (dest : Place) (value : Expr) : Lower (Place × Expr × LoopBlocks) := do
  let (_, dest, value) ← assign line dest value
  let cond ← build (.appendBlock "loop.cond")
  let body ← build (.appendBlock "loop.body")
  let stop ← build (.appendBlock "loop.end")
  build (.br cond)
  build (.moveTo cond)
  return (dest, value, ⟨cond, body, stop⟩)

/-- What a loop does from its condition to its body. -/
def openRound (cond : Expr) (blocks : LoopBlocks) : Lower Expr := do
  let (value, lowered) ← cond.lower
  let test ← condition cond.line value
  branchOn test blocks.body blocks.stop blocks.stop
  build (.moveTo blocks.body)
  return lowered

/-- What a procedure that was declared does before its body. -/
def enterProcedure (name : String) (opened : Opened) : Lower Unit := do
  build (.moveTo opened.entry)
  openScope name (.procedure opened.ret)
  bindParams opened.params

/-- Does something unless the block at the cursor has ended. -/
def unlessEnded (x : Lower Unit) : Lower Unit := do
  unless ← build .isTerminated do
    x

/-- What a procedure does last: it goes back to where it was declared. -/
def leaveProcedure (saved : Option Ir.Cursor) : Lower Unit := do
  closeScope
  build (.restore saved)

/-- What a program does behind its statements. -/
def endProgram : Lower Unit := do
  if (← get).builder.cursor.isSome then
    unlessEnded (build (.ret (.int 0)))

/-- What a program does last. -/
def leaveProgram : Lower Ir.Module := do
  unless (← get).frames.isEmpty do
    closeScope
  return (← get).builder.module

theorem assign_eq (line : Nat) (dest : Place) (value : Expr) :
    assign line dest value = do
      let (opened, value) ← openAssign line dest value
      match opened with
      | none => return (none, dest, value)
      | some (symbol, v) =>
        let (address, dest) ← dest.lower symbol
        match address with
        | none => return (none, dest, value)
        | some address =>
          build (.store v address)
          return (some (v, symbol.ty), dest, value) := by
  unfold assign openAssign
  rw [bind_assoc]
  refine bind_congr ?_
  rintro ⟨result, value⟩
  cases result with
  | none => rw [pure_bind]
  | some found =>
    unfold assignTo
    simp only [bind_assoc]
    refine bind_congr fun s => bind_congr fun symbol => ?_
    cases symbol with
    | none => simp only [pure_bind]
    | some symbol =>
      simp only [bind_assoc]
      refine bind_congr fun s => ?_
      cases s.symbols.update _ with
      | error e => simp only [report, bind_assoc, pure_bind]
      | ok symbols =>
        simp only [bind_assoc, pure_bind]
        refine bind_congr fun _ => bind_congr fun v => bind_congr ?_
        rintro ⟨address, dest⟩
        cases address with
        | none => simp only [pure_bind]
        | some address => simp only [bind_assoc, pure_bind]

theorem procedure_eq {α : Type} (line : Nat) (name : String) (opened : Opened)
    (body : Lower (Result × α)) :
    procedure line name opened body = do
      let saved := (← get).builder.cursor
      enterProcedure name opened
      let (last, a) ← body
      unlessEnded (implicitReturn line name opened.ret last)
      leaveProcedure saved
      return a := by
  unfold procedure enterProcedure unlessEnded leaveProcedure
  simp only [bind_assoc]
  refine bind_congr fun _ => bind_congr fun _ => bind_congr fun _ => bind_congr fun _ => ?_
  refine bind_congr fun _ => bind_congr fun ended => ?_
  cases ended <;> rfl

theorem finish_eq : finish = (do
    endProgram
    leaveProgram) := by
  unfold finish endProgram unlessEnded leaveProgram
  rw [bind_assoc]
  refine bind_congr fun s => ?_
  cases s.builder.cursor.isSome with
  | false => rfl
  | true =>
    simp only [if_true, bind_assoc]
    refine bind_congr fun ended => ?_
    cases ended <;> rfl

end Lower

open Lower

theorem branch_eq (cond : Expr) (yes : List Stmt) (line : Nat) :
    Stmt.lower (.branch cond yes none line) = do
      let (lowered, _, merge) ← openBranch cond false
      let (_, yes) ← lowerBlock none yes
      let _ ← fallThrough merge
      build (.moveTo merge)
      return (none, .branch lowered yes none line) := by
  rw [Stmt.lower]
  simp only [openBranch, appendIf, bind_assoc, pure_bind, Bool.false_eq_true, if_false,
    Option.getD_none]

theorem branchElse_eq (cond : Expr) (yes no : List Stmt) (line : Nat) :
    Stmt.lower (.branch cond yes (some no) line) = do
      let (lowered, noBlock, merge) ← openBranch cond true
      let (_, yes) ← lowerBlock none yes
      let yesEnded ← fallThrough merge
      build (.moveTo noBlock)
      let (_, no) ← lowerBlock none no
      let noEnded ← fallThrough merge
      build (.moveTo merge)
      if yesEnded && noEnded then
        build .unreachable
      return (none, .branch lowered yes (some no) line) := by
  rw [Stmt.lower]
  simp only [openBranch, appendIf, bind_assoc, pure_bind, if_true, bind_map_left,
    Option.getD_some]

theorem loop_eq (dest : Place) (value cond : Expr) (body : List Stmt) (line : Nat) :
    Stmt.lower (.loop dest value cond body line) = do
      let (dest, value, blocks) ← openLoop line dest value
      let lowered ← openRound cond blocks
      let (_, body) ← lowerBlock none body
      let _ ← fallThrough blocks.cond
      build (.moveTo blocks.stop)
      return (none, .loop dest value lowered body line) := by
  rw [Stmt.lower]
  simp only [openLoop, openRound, bind_assoc, pure_bind]

/-- When the items are lowered from the state `begun` on, the statements come next at the state. -/
inductive Lowering.Visits (begun : Lowering) (items : List Stmt) : List Stmt → Lowering → Prop
  | start : Visits begun items items begun
  /-- Behind a statement. -/
  | stmt {stmt : Stmt} {rest : List Stmt} {s s' : Lowering} {r : Result × Stmt} :
    Visits begun items (stmt :: rest) s → stmt.lower s = .ok (r, s') → Visits begun items rest s'
  /-- Between two items. -/
  | next {rest : List Stmt} {s : Lowering} : Visits begun items rest s →
    Visits begun items rest s.clearFindings
  /-- In the first arm of a branch. -/
  | arm {cond : Expr} {yes : List Stmt} {no : Option (List Stmt)} {line : Nat} {rest : List Stmt}
    {s s' : Lowering} {r : Expr × Ir.Cursor × Ir.Cursor} :
    Visits begun items (.branch cond yes no line :: rest) s →
    openBranch cond no.isSome s = .ok (r, s') → Visits begun items yes s'
  /-- In the second arm of a branch. -/
  | alternative {cond cond' : Expr} {yes no : List Stmt} {line : Nat} {rest : List Stmt}
    {s s1 s2 s3 s4 : Lowering} {noBlock merge : Ir.Cursor} {r : Result × List Stmt} {ended : Bool} :
    Visits begun items (.branch cond yes (some no) line :: rest) s →
    openBranch cond true s = .ok ((cond', noBlock, merge), s1) →
    lowerBlock none yes s1 = .ok (r, s2) → fallThrough merge s2 = .ok (ended, s3) →
    build (.moveTo noBlock) s3 = .ok ((), s4) → Visits begun items no s4
  /-- In the body of a loop. -/
  | body {dest dest' : Place} {value value' cond cond' : Expr} {body : List Stmt} {line : Nat}
    {rest : List Stmt} {s s1 s2 : Lowering} {blocks : LoopBlocks} :
    Visits begun items (.loop dest value cond body line :: rest) s →
    openLoop line dest value s = .ok ((dest', value', blocks), s1) →
    openRound cond blocks s1 = .ok (cond', s2) → Visits begun items body s2
  /-- In the body of a procedure. -/
  | procedure {heading : Heading} {body : List Stmt} {line : Nat} {rest : List Stmt}
    {s s1 s2 : Lowering} {opened : Opened} :
    Visits begun items (.procedure heading body line :: rest) s →
    openProcedure line heading s = .ok (some opened, s1) →
    enterProcedure heading.name opened s1 = .ok ((), s2) → Visits begun items body s2

end ProcLang
