import ProcLang.Proofs.Meaning.Assign
import ProcLang.Proofs.Meaning.Control
import ProcLang.Proofs.Meaning.Declare

/-!
# The code of statements

* `stmt_simulates`, `block_simulates`: statements without procedures that are lowered without errors
  do in the function what they do in the program.

The blocks that a branch or a loop adds are laid out first and filled later. What is said about them
is said in the end, when the function is finished: it has all the blocks, each with at least the
code that was there when lowering left it.
-/

namespace ProcLang

open Ir Lower Naming

/-- Lowering added code that does what a part of the program does, in as many blocks as it takes. -/
def Simulates (env : Env) (s : Lowering) (w : Spot) (env' : Env) (s' : Lowering)
    (exec : (W : World) → Nat → Exec W Unit) : Prop :=
  ∃ w', s'.At w' ∧ Leads env s w env' s' w' ∧
    ∀ {W : World} {E : Final W}, w'.fn.GrowsTo E.fn → E.Knows env' s' →
      ∀ n, E.Does n w w' (exec W n)

variable {env env' : Env} {s s' s1 s2 : Lowering} {w w1 : Spot} {test : (W : World) → Exec W Bool}
  {exec : (W : World) → Nat → Exec W Unit}

/-! ## Parts in order -/

theorem Lowering.In.has {W : World} {E : Final W} (h : s.In w) (hg : w.fn.GrowsTo E.fn) : E.Has w :=
  ⟨h.block, hg⟩

theorem Performs.simulates {exec : (W : World) → Exec W Unit} (h : Performs env s w s' exec)
    (hscene : Scene env s) : Simulates env s w env s' fun W _ => exec W := by
  obtain ⟨code, w', hadds, hsem⟩ := h
  refine ⟨w', hadds.placed, hadds.toStill.leads hscene hadds.spot.roams, ?_⟩
  intro W E hg hknows n store state hstands
  have hw := hadds.placed.has hg
  have hspared := E.spared_adds hadds.spot hw
  exact hstands.code hadds.spot hw fun hagree => hsem E.apart hknows hspared hagree

theorem simulates_nil (hs : s.At w) (hscene : Scene env s) :
    Simulates env s w env s fun _ _ => pure () := by
  refine ⟨w, hs, (Lowering.Still.refl s).leads hscene (Spot.Adds.refl w).roams, ?_⟩
  intro W E _ _ n
  exact Final.does_refl n w

theorem Simulates.seq {env1 : Env} {x y : (W : World) → Nat → Exec W Unit}
    (hx : Simulates env s w env1 s1 x)
    (hy : ∀ {w1 : Spot}, s1.At w1 → Scene env1 s1 → Simulates env1 s1 w1 env' s' y) :
    Simulates env s w env' s' (fun W n => do x W n; y W n) := by
  obtain ⟨w1, hs1, hleads1, hdoes1⟩ := hx
  obtain ⟨w2, hs2, hleads2, hdoes2⟩ := hy hs1 hleads1.scene
  refine ⟨w2, hs2, hleads1.trans hleads2, ?_⟩
  intro W E hg hknows n
  have hx := hdoes1 (hleads2.spot.fn.trans hg) (hleads2.knows hknows) n
  exact hx.seq (hdoes2 hg hknows n)

/-! ## Blocks -/

variable {cond : Value} {ended : Bool}

/-- Blocks that are laid out behind a condition. -/
theorem Tests.extend {w' : Spot} (h : Tests env s w s1 w1 test cond) (hadds : s1.Adds w1 [] s' w') :
    Tests env s w s' w' test cond := by
  obtain ⟨code, hadds1, hsem⟩ := h
  refine ⟨code, ?_, fun hknows => hsem (hknows.anti hadds.toStill)⟩
  have htrans := hadds1.trans hadds
  rwa [List.append_nil] at htrans

/-- **A fork** behind a condition. -/
theorem condBr_forks (htest : Tests env s w s1 w1 test cond) (hscene : Scene env s) {f : Nat}
    (hf : w.index = f) {n m : Nat} {yes no : String} (hyes : w1.Labels n yes) (hno : w1.Labels m no)
    (run : build (.condBr cond ⟨f, n⟩ ⟨f, m⟩) s1 = .ok ((), s')) :
    ∃ w', s'.In w' ∧ w1.Roams w' ∧ Leads env s w env s' w' ∧
      ∀ {W : World} {E : Final W}, w'.fn.GrowsTo E.fn → E.Knows env s' →
        w1.fn.GrowsTo E.fn ∧ E.Forks w (test W) yes no := by
  obtain ⟨code, hadds, hsem⟩ := htest
  obtain ⟨w', hends⟩ := condBr_ends hadds.placed (hadds.spot.index.trans hf) hyes hno run
  refine ⟨w', hends.placed, hends.spot.roams, (hadds.toStill.trans hends.toStill).leads hscene
    (hadds.spot.roams.trans hends.spot.roams), ?_⟩
  intro W E hg hknows
  have hg1 := hends.spot.fn.trans hg
  have hw1 := hadds.placed.has hg1
  refine ⟨hg1, Final.forks_of hadds.spot hw1 hends.spot (hends.placed.has hg) ?_⟩
  exact hsem (hknows.anti hends.toStill) (E.spared_adds hadds.spot hw1)

section Arms

variable {s0 : Lowering} {w0 : Spot} {env0 : Env} (hs0 : s0.At w0)
  (hleads : Leads env0 s0 w0 env s w) (hs : s.In w) {n : Nat} {label : String}
  (hnew : w0.fn.blocks.length ≤ n) (ha : w.Awaits n label)

include hs0 hleads hs hnew ha

/-- **Entering a block** that was laid out and is awaited. -/
theorem enter_leads (run : build (.moveTo ⟨w0.index, n⟩) s = .ok ((), s')) :
    ∃ b, b.label = label ∧ s'.At ⟨w.index, w.fn, n, b⟩ ∧
      Leads env0 s0 w0 env s' ⟨w.index, w.fn, n, b⟩ ∧
      ∀ {W : World} {E : Final W}, w.fn.GrowsTo E.fn → E.Knows env s' →
        E.Knows env s ∧ E.Starts ⟨w.index, w.fn, n, b⟩ := by
  obtain ⟨b, hlabel, hbody, hstill, hs'⟩ := moveTo_at hs hleads.spot.index ha run
  have hpos := hs0.number_lt
  have hne : n ≠ 0 := by omega
  exact ⟨b, hlabel, hs', hleads.move hstill hnew b,
    fun hg hknows => ⟨hknows.anti hstill, ⟨hs'.block, hg⟩, hne, hbody⟩⟩

/-- **An arm** of a branch or the body of a loop: an awaited block is filled, and the code goes on
at another block. -/
theorem arm_simulates {m : Nat} {dest : String} (hdest : w.Labels m dest)
    (run1 : build (.moveTo ⟨w0.index, n⟩) s = .ok ((), s1))
    (hsim : ∀ {w1 : Spot}, s1.At w1 → Scene env s1 → Simulates env s1 w1 env' s2 exec)
    (run2 : fallThrough ⟨w0.index, m⟩ s2 = .ok (ended, s')) :
    ended = false ∧ ∃ b w', b.label = label ∧ s'.In w' ∧ Leads env0 s0 w0 env' s' w' ∧
      (∀ {k : Nat} {l : String}, k ≠ n → w.Awaits k l → w'.Awaits k l) ∧
      ∀ {W : World} {E : Final W}, w'.fn.GrowsTo E.fn → E.Knows env' s' →
        w.fn.GrowsTo E.fn ∧ E.Knows env s ∧ E.Starts ⟨w.index, w.fn, n, b⟩ ∧
        ∀ {target : Spot}, E.Starts target → target.block.label = dest →
          ∀ k, E.Does k ⟨w.index, w.fn, n, b⟩ target (exec W k) := by
  obtain ⟨b, hlabel, hs1, hleads1, henter⟩ := enter_leads hs0 hleads hs hnew ha run1
  obtain ⟨w2, hs2, hleads2, hdoes⟩ := hsim hs1 hleads1.scene
  have hindex := hleads2.spot.index.trans hleads.spot.index
  obtain ⟨hended, w3, hends⟩ := fallThrough_ends hs2 hindex (hleads2.spot.labels hdest) run2
  have hleads3 := hends.toStill.leads hleads2.scene hends.spot.roams
  refine ⟨hended, b, w3, hlabel, hends.placed, hleads1.trans (hleads2.trans hleads3),
    fun hne hk => hends.spot.roams.awaits (hleads2.spot.awaits (hk.move hne b)), ?_⟩
  intro W E hg hknows
  have hg2 := hends.spot.fn.trans hg
  have hknows2 := hleads3.knows hknows
  have hg1 := hleads2.spot.fn.trans hg2
  obtain ⟨hknows1, hstarts⟩ := henter hg1 (hleads2.knows hknows2)
  refine ⟨hg1, hknows1, hstarts, ?_⟩
  rintro target htarget rfl k
  exact (hdoes hg2 hknows2 k).jump hends.spot (hends.placed.has hg) htarget

end Arms

/-! ## Branches -/

/-- **A branch** with one arm. -/
theorem branch_simulates {s3 s4 s5 s6 s7 : Lowering} {yes merge : Ir.Cursor} (hs : s.At w)
    (hscene : Scene env s) (htest : ∃ w1, Tests env s w s1 w1 test cond)
    (run2 : build (.appendBlock "then") s1 = .ok (yes, s2))
    (run3 : build (.appendBlock "merge") s2 = .ok (merge, s3))
    (run4 : build (.condBr cond yes merge) s3 = .ok ((), s4))
    (run5 : build (.moveTo yes) s4 = .ok ((), s5))
    (hsim : ∀ {w1 : Spot}, s5.At w1 → Scene env s5 → Simulates env s5 w1 env' s6 exec)
    (run6 : fallThrough merge s6 = .ok (ended, s7))
    (run7 : build (.moveTo merge) s7 = .ok ((), s')) :
    Simulates env s w env' s' (fun W n => do if ← test W then exec W n) := by
  obtain ⟨w1, htest⟩ := htest
  obtain ⟨code, hadds1, -⟩ := id htest
  obtain ⟨rfl, rfl, w2, label1, label2, hadds2, -, ha1, ha2⟩ :=
    appendBlocks_adds hadds1.placed hadds1.spot.index run2 run3
  obtain ⟨w3, hin3, hroams, hleads3, hforks⟩ :=
    condBr_forks (htest.extend hadds2) hscene rfl ha1.labels ha2.labels run4
  have hlen := hadds1.spot.fn.length_le
  have hmerge := hroams.awaits ha2
  obtain ⟨-, b, w4, hlabelb, hin4, hleads4, hawaits, harm⟩ := arm_simulates hs hleads3 hin3 hlen
    (hroams.awaits ha1) hmerge.labels run5 hsim run6
  -- the block behind the branch is still empty
  obtain ⟨m, hlabelm, hs', hleads', henter⟩ :=
    enter_leads hs hleads4 hin4 (by omega) (hawaits (by omega) hmerge) run7
  refine ⟨_, hs', hleads', ?_⟩
  intro W E hg hknows n
  obtain ⟨hknows4, hstarts⟩ := henter hg hknows
  obtain ⟨hg3, hknows3, hyes, hdoes⟩ := harm hg hknows4
  have hfork := (hforks hg3 hknows3).2
  rw [← hlabelb, ← hlabelm] at hfork
  exact hfork.branch hyes hstarts (hdoes hstarts hlabelm n) (Final.does_refl n _)

/-- **A branch** with two arms. -/
theorem branch_else_simulates {s3 s4 s5 s6 s7 s8 s9 s10 s11 : Lowering}
    {exec' : (W : World) → Nat → Exec W Unit} {yes no merge : Ir.Cursor} {yesEnded noEnded : Bool}
    {env1 : Env} (hs : s.At w) (hscene : Scene env s) (htest : ∃ w1, Tests env s w s1 w1 test cond)
    (run2 : build (.appendBlock "then") s1 = .ok (yes, s2))
    (run3 : build (.appendBlock "else") s2 = .ok (no, s3))
    (run4 : build (.appendBlock "merge") s3 = .ok (merge, s4))
    (run5 : build (.condBr cond yes no) s4 = .ok ((), s5))
    (run6 : build (.moveTo yes) s5 = .ok ((), s6))
    (hsim : ∀ {w1 : Spot}, s6.At w1 → Scene env s6 → Simulates env s6 w1 env1 s7 exec)
    (run7 : fallThrough merge s7 = .ok (yesEnded, s8)) (run8 : build (.moveTo no) s8 = .ok ((), s9))
    (hsim' : ∀ {w1 : Spot}, s9.At w1 → Scene env1 s9 → Simulates env1 s9 w1 env' s10 exec')
    (run9 : fallThrough merge s10 = .ok (noEnded, s11))
    (run10 : build (.moveTo merge) s11 = .ok ((), s')) : (yesEnded && noEnded) = false ∧
      Simulates env s w env' s' (fun W n => do if ← test W then exec W n else exec' W n) := by
  obtain ⟨w1, htest⟩ := htest
  obtain ⟨code, hadds1, -⟩ := id htest
  obtain ⟨rfl, rfl, w2, label1, label2, hadds2, hlen2, ha1, ha2⟩ :=
    appendBlocks_adds hadds1.placed hadds1.spot.index run2 run3
  obtain ⟨rfl, w3, label3, hadds3, -, ha3⟩ :=
    appendBlock_adds hadds2.placed (hadds2.spot.index.trans hadds1.spot.index) run4
  have hroams3 := hadds3.spot.roams
  obtain ⟨w5, hin5, hroams, hleads5, hforks⟩ := condBr_forks
    (htest.extend (hadds2.trans hadds3)) hscene rfl (hroams3.labels ha1.labels)
    (hroams3.labels ha2.labels) run5
  have hroams5 := hroams3.trans hroams
  have hlen := hadds1.spot.fn.length_le
  have hmerge5 := hroams.awaits ha3
  obtain ⟨hended, b, w8, hlabelb, hin8, hleads8, hawaits8, harm⟩ :=
    arm_simulates hs hleads5 hin5 hlen (hroams5.awaits ha1) hmerge5.labels run6 hsim run7
  -- the other two blocks are still empty
  have hmerge8 := hawaits8 (by omega) hmerge5
  obtain ⟨-, b', w11, hlabelb', hin11, hleads11, hawaits11, harm'⟩ := arm_simulates hs hleads8 hin8
    (by omega) (hawaits8 (by omega) (hroams5.awaits ha2)) hmerge8.labels run8 hsim' run9
  obtain ⟨m, hlabelm, hs', hleads', henter⟩ :=
    enter_leads hs hleads11 hin11 (by omega) (hawaits11 (by omega) hmerge8) run10
  refine ⟨by rw [hended]; rfl, _, hs', hleads', ?_⟩
  intro W E hg hknows n
  obtain ⟨hknows11, hstarts⟩ := henter hg hknows
  obtain ⟨hg8, hknows8, hno, hdoes'⟩ := harm' hg hknows11
  obtain ⟨hg5, hknows5, hyes, hdoes⟩ := harm hg8 hknows8
  have hfork := (hforks hg5 hknows5).2
  rw [← hlabelb, ← hlabelb'] at hfork
  exact hfork.branch hyes hno (hdoes hstarts hlabelm n) (hdoes' hstarts hlabelm n)

/-! ## Loops -/

/-- **A loop.** -/
theorem loop_simulates {s3 s4 s5 s6 s7 s8 s9 s10 s11 : Lowering}
    {init : (W : World) → Exec W Unit} {condBlock body done : Ir.Cursor} (hs : s.At w)
    (hscene : Scene env s) (hinit : Performs env s w s1 init)
    (run2 : build (.appendBlock "loop.cond") s1 = .ok (condBlock, s2))
    (run3 : build (.appendBlock "loop.body") s2 = .ok (body, s3))
    (run4 : build (.appendBlock "loop.end") s3 = .ok (done, s4))
    (run5 : build (.br condBlock) s4 = .ok ((), s5))
    (run6 : build (.moveTo condBlock) s5 = .ok ((), s6))
    (htest : ∀ {w1 : Spot}, s6.At w1 → Scene env s6 → ∃ w2, Tests env s6 w1 s7 w2 test cond)
    (run8 : build (.condBr cond body done) s7 = .ok ((), s8))
    (run9 : build (.moveTo body) s8 = .ok ((), s9))
    (hsim : ∀ {w1 : Spot}, s9.At w1 → Scene env s9 → Simulates env s9 w1 env' s10 exec)
    (run10 : fallThrough condBlock s10 = .ok (ended, s11))
    (run11 : build (.moveTo done) s11 = .ok ((), s')) :
    Simulates env s w env' s' (fun W n => do
      init W
      Exec.rounds (test W) (exec W n) n) := by
  obtain ⟨w1, hs1, hleads1, hdoes1⟩ := hinit.simulates hscene
  have hf1 : w1.index = w.index := hleads1.spot.index
  obtain ⟨rfl, rfl, w2, label1, label2, hadds2, hlen2, ha1, ha2⟩ :=
    appendBlocks_adds hs1 hf1 run2 run3
  have hf2 : w2.index = w.index := hadds2.spot.index.trans hf1
  obtain ⟨rfl, w3, label3, hadds3, -, ha3⟩ := appendBlock_adds hadds2.placed hf2 run4
  have hblocks := hadds2.trans hadds3
  have ha13 := hadds3.spot.roams.awaits ha1
  -- into the loop
  obtain ⟨w5, hends⟩ := br_ends hadds3.placed (hadds3.spot.index.trans hf2) ha13.labels run5
  have hroams := hends.spot.roams
  have hroams5 := hadds3.spot.roams.trans hroams
  have hstill5 := hblocks.toStill.trans hends.toStill
  have hleads5 := hleads1.trans (hstill5.leads hleads1.scene (hblocks.spot.roams.trans hroams))
  have hlen := hleads1.spot.fn.length_le
  obtain ⟨b, hlabelb, hs6, hleads6, henter6⟩ :=
    enter_leads hs hleads5 hends.placed hlen (hroams.awaits ha13) run6
  -- the condition
  obtain ⟨w7, htest⟩ := htest hs6 hleads6.scene
  obtain ⟨code, hadds7, -⟩ := id htest
  have hroams7 := hadds7.spot.roams
  have ha27 := hroams7.awaits ((hroams5.awaits ha2).move (by omega) b)
  have ha37 := hroams7.awaits ((hroams.awaits ha3).move (by omega) b)
  obtain ⟨w8, hin8, hroams8, hleads8, hforks⟩ := condBr_forks htest hleads6.scene
    hleads5.spot.index ha27.labels ha37.labels run8
  -- the body goes back to the condition
  obtain ⟨-, b', w11, hlabelb', hin11, hleads11, hawaits, harm⟩ := arm_simulates hs
    (hleads6.trans hleads8) hin8 (by omega) (hroams8.awaits ha27)
    (hleads8.spot.labels ⟨b, hs6.block, rfl⟩) run9 hsim run10
  obtain ⟨m, hlabelm, hs', hleads', henter⟩ := enter_leads hs hleads11 hin11 (by omega)
    (hawaits (by omega) (hroams8.awaits ha37)) run11
  refine ⟨_, hs', hleads', ?_⟩
  intro W E hg hknows n
  obtain ⟨hknows11, hdone⟩ := henter hg hknows
  obtain ⟨hg8, hknows8, hyes, hround⟩ := harm hg hknows11
  obtain ⟨hg7, hfork⟩ := hforks hg8 hknows8
  have hg5 := hadds7.spot.fn.trans hg7
  obtain ⟨hknows5, hcond⟩ := henter6 hg5 (hleads8.knows hknows8)
  have hinit := hdoes1 ((hblocks.spot.fn.trans hends.spot.fn).trans hg5) (hknows5.anti hstill5) n
  have hentry : w1.Adds [.br b.label] w5 := hlabelb ▸ hblocks.spot.trans hends.spot
  rw [← hlabelb', ← hlabelm] at hfork
  exact (hinit.jump hentry (hends.placed.has hg5) hcond).seq
    (hfork.rounds hyes hdone (hround hcond rfl n) n (Nat.le_refl n))

/-! ## Statements -/

theorem branchOn_errors {cond : Option Value} {yes no otherwise : Ir.Cursor}
    (run : branchOn cond yes no otherwise s = .ok ((), s')) : s'.errors = s.errors := by
  cases cond <;> exact build_errors run

theorem fallThrough_errors {target : Ir.Cursor} (run : fallThrough target s = .ok (ended, s')) :
    s'.errors = s.errors := by
  obtain ⟨ended, s1, run1, rest1⟩ := run_bind_inv run
  cases ended with
  | true =>
    cases rest1
    exact build_errors run1
  | false =>
    obtain ⟨⟨⟩, s2, run2, run3⟩ := run_bind_inv rest1
    cases run3
    exact (build_errors run2).trans (build_errors run1)

theorem Computes.performs {x : (W : World) → Exec W W.Val} {v : Value} {ty : Ty}
    (h : Computes env s w s' x v ty) (hs : s.At w) :
    Performs env s w s' (fun W => do let _ ← x W) := by
  obtain ⟨code, w', hy, hsem⟩ := h
  refine ⟨code ++ [], w', (hy.toPuts.trans hy.placed.puts_nil).adds hs, ?_⟩
  intro W T _ hknows hspare act store hagree
  refine (hsem hknows hspare.left hagree).bind fun value store1 act1 h1 => ?_
  exact .pure h1.agrees

/-- A state that differs in its warnings only. -/
theorem warn_still (line : Nat) (message : String) (run : warn line message s = .ok ((), s')) :
    s.Still s' ∧ ∀ {w : Spot}, s.At w → s'.At w := by
  cases run
  exact ⟨⟨.refl _, rfl, rfl, rfl⟩, fun hs => ⟨⟨hs.placed, hs.block⟩, hs.isOpen⟩⟩

mutual

/-- **The code of a statement** does what the statement does. -/
theorem stmt_simulates : ∀ (stmt : Stmt) {env : Env} {s s' : Lowering} {w : Spot}
    {r : Result × Stmt}, stmt.ProcedureFree → stmt.InRange → s.At w → Scene env s →
    stmt.lower s = .ok (r, s') → s'.errors = s.errors →
    Simulates env s w (stmt.declares env) s' fun W n => stmt.exec W n env
  | .assign dest value line, env, s, s', w, r, _, hr, hs, hscene, run, herrors => by
    rw [Stmt.lower] at run
    obtain ⟨⟨result, dest', value'⟩, s1, run1, run2⟩ := run_bind_inv run
    cases run2
    simp only [Stmt.exec, Stmt.declares]
    exact (assign_performs hr.1 hr.2 hs hscene run1 herrors).simulates hscene
  | .call call line, env, s, s', w, r, _, hr, hs, hscene, run, herrors => by
    rw [Stmt.lower] at run
    obtain ⟨⟨result, call'⟩, s1, run1, run2⟩ := run_bind_inv run
    cases run2
    have hsome := (expr_tells call s s' _ run1).2 herrors
    obtain ⟨⟨v, ty⟩, rfl⟩ := Option.isSome_iff_exists.mp hsome
    simp only [Stmt.exec, Stmt.declares]
    exact ((expr_computes call hr hs.toIn (hscene.suits _) run1).performs hs).simulates hscene
  | .declare decl line, env, s, s', w, r, _, _, hs, hscene, run, herrors => by
    rw [Stmt.lower] at run
    obtain ⟨result, s1, run1, run2⟩ := run_bind_inv run
    cases run2
    obtain ⟨v, w', hv, hs', hadds, hleads⟩ := declareVariable_leads hs hscene run1 herrors
    simp only [Stmt.exec, Stmt.declares, hv, Option.map_some, Option.getD_some]
    refine ⟨w', hs', hleads, ?_⟩
    rintro W E hg - n store state ⟨act, rfl, hagree⟩
    refine .pure ⟨act, ?_, hagree⟩
    rw [Final.rest_adds hadds (hs'.has hg)]
    rfl
  | .declareType name mark isGlobal line, env, s, s', w, r, _, _, hs, hscene, run, _ => by
    rw [Stmt.lower] at run
    obtain ⟨⟨⟩, s1, run1, run2⟩ := run_bind_inv run
    cases run2
    obtain ⟨hstill, hplaced⟩ := warn_still _ _ run1
    simp only [Stmt.exec, Stmt.declares]
    refine ⟨w, hplaced hs, hstill.leads hscene (Spot.Adds.refl w).roams, ?_⟩
    intro W E _ _ n
    exact Final.does_refl n w
  | .branch cond yes none line, env, s, s', w, r, hp, hr, hs, hscene, run, herrors => by
    rw [Stmt.lower] at run
    obtain ⟨⟨value, cond'⟩, s1, run1, rest1⟩ := run_bind_inv run
    obtain ⟨test, s2, run2, rest2⟩ := run_bind_inv rest1
    obtain ⟨yesBlock, s3, run3, rest3⟩ := run_bind_inv rest2
    obtain ⟨merge, s4, run4, rest4⟩ := run_bind_inv rest3
    obtain ⟨⟨⟩, s5, run5, rest5⟩ := run_bind_inv rest4
    obtain ⟨⟨⟩, s6, run6, rest6⟩ := run_bind_inv rest5
    obtain ⟨⟨last, yes'⟩, s7, run7, rest7⟩ := run_bind_inv rest6
    obtain ⟨ended, s8, run8, rest8⟩ := run_bind_inv rest7
    obtain ⟨⟨⟩, s9, run9, run10⟩ := run_bind_inv rest8
    cases run10
    have hmid : s6.errors = s2.errors := by
      rw [build_errors run6, branchOn_errors run5, build_errors run4, build_errors run3]
    have hend : s'.errors = s7.errors := by rw [build_errors run9, fallThrough_errors run8]
    have hgrow2 : s.errors <+: s2.errors :=
      (expr_tells cond s s1 _ run1).1.trans (tells_condition _ value s1 s2 _ run2).1
    have hgrow7 : s6.errors <+: s7.errors := (block_tells yes none s6 s7 _ run7).1
    obtain ⟨hsame2, hsame7⟩ :=
      Stage.errors_between hgrow2 (hmid ▸ hgrow7) (hend.symm.trans herrors)
    obtain ⟨u, uty, c, rfl, rfl⟩ := condition_some run1 run2 hsame2
    have htest := condition_tests hs (expr_computes cond hr.1 hs.toIn (hscene.suits _) run1) run2
    simp only [Stmt.exec, Stmt.declares]
    refine branch_simulates hs hscene htest run3 run4 run5 run6 ?_ run8 run9
    intro w1 hs1 hscene1
    exact block_simulates yes hp hr.2 hs1 hscene1 run7 (hsame7.trans hmid.symm)
  | .branch cond yes (some no) line, env, s, s', w, r, hp, hr, hs, hscene, run, herrors => by
    rw [Stmt.lower] at run
    obtain ⟨⟨value, cond'⟩, s1, run1, rest1⟩ := run_bind_inv run
    obtain ⟨test, s2, run2, rest2⟩ := run_bind_inv rest1
    obtain ⟨yesBlock, s3, run3, rest3⟩ := run_bind_inv rest2
    obtain ⟨noBlock, s4, run4, rest4⟩ := run_bind_inv rest3
    obtain ⟨merge, s5, run5, rest5⟩ := run_bind_inv rest4
    obtain ⟨⟨⟩, s6, run6, rest6⟩ := run_bind_inv rest5
    obtain ⟨⟨⟩, s7, run7, rest7⟩ := run_bind_inv rest6
    obtain ⟨⟨last, yes'⟩, s8, run8, rest8⟩ := run_bind_inv rest7
    obtain ⟨yesEnded, s9, run9, rest9⟩ := run_bind_inv rest8
    obtain ⟨⟨⟩, s10, run10, rest10⟩ := run_bind_inv rest9
    obtain ⟨⟨last', no'⟩, s11, run11, rest11⟩ := run_bind_inv rest10
    obtain ⟨noEnded, s12, run12, rest12⟩ := run_bind_inv rest11
    obtain ⟨⟨⟩, s13, run13, rest13⟩ := run_bind_inv rest12
    have hmid : s7.errors = s2.errors := by
      rw [build_errors run7, branchOn_errors run6, build_errors run5, build_errors run4,
        build_errors run3]
    have hmid' : s10.errors = s8.errors := by rw [build_errors run10, fallThrough_errors run9]
    have hend : s'.errors = s11.errors := by
      have hlast : s13.errors = s11.errors := by rw [build_errors run13, fallThrough_errors run12]
      rw [← hlast]
      by_cases hended : (yesEnded && noEnded) = true
      · rw [if_pos hended] at rest13
        obtain ⟨⟨⟩, s14, run14, run15⟩ := run_bind_inv rest13
        cases run15
        exact build_errors run14
      · rw [if_neg hended] at rest13
        cases rest13
        rfl
    have hgrow2 : s.errors <+: s2.errors :=
      (expr_tells cond s s1 _ run1).1.trans (tells_condition _ value s1 s2 _ run2).1
    have hgrow8 : s2.errors <+: s8.errors :=
      hmid ▸ (block_tells yes none s7 s8 _ run8).1
    have hgrow11 : s8.errors <+: s11.errors :=
      hmid' ▸ (block_tells no none s10 s11 _ run11).1
    obtain ⟨hsame, hsame11⟩ :=
      Stage.errors_between (hgrow2.trans hgrow8) hgrow11 (hend.symm.trans herrors)
    obtain ⟨hsame2, hsame8⟩ := Stage.errors_between hgrow2 hgrow8 hsame
    obtain ⟨u, uty, c, rfl, rfl⟩ := condition_some run1 run2 hsame2
    have htest := condition_tests hs (expr_computes cond hr.1 hs.toIn (hscene.suits _) run1) run2
    have hyes : ∀ {w1 : Spot}, s7.At w1 → Scene env s7 →
        Simulates env s7 w1 (blockDeclares env yes) s8 fun W n => execBlock W n env yes := by
      intro w1 hs1 hscene1
      exact block_simulates yes hp.1 hr.2.1 hs1 hscene1 run8 (hsame8.trans hmid.symm)
    have hno : ∀ {w1 : Spot}, s10.At w1 → Scene (blockDeclares env yes) s10 →
        Simulates (blockDeclares env yes) s10 w1 (blockDeclares (blockDeclares env yes) no) s11
          fun W n => execBlock W n (blockDeclares env yes) no := by
      intro w1 hs1 hscene1
      exact block_simulates no hp.2 hr.2.2 hs1 hscene1 run11 (hsame11.trans hmid'.symm)
    obtain ⟨hended, hsim⟩ := branch_else_simulates hs hscene htest run3 run4 run5 run6 run7 hyes
      run9 run10 hno run12 run13
    rw [hended] at rest13
    cases rest13
    simp only [Stmt.exec, Stmt.declares]
    exact hsim
  | .loop dest value cond body line, env, s, s', w, r, hp, hr, hs, hscene, run, herrors => by
    rw [Stmt.lower] at run
    obtain ⟨⟨result, dest', value'⟩, s1, run1, rest1⟩ := run_bind_inv run
    obtain ⟨condBlock, s2, run2, rest2⟩ := run_bind_inv rest1
    obtain ⟨bodyBlock, s3, run3, rest3⟩ := run_bind_inv rest2
    obtain ⟨endBlock, s4, run4, rest4⟩ := run_bind_inv rest3
    obtain ⟨⟨⟩, s5, run5, rest5⟩ := run_bind_inv rest4
    obtain ⟨⟨⟩, s6, run6, rest6⟩ := run_bind_inv rest5
    obtain ⟨⟨value'', cond'⟩, s7, run7, rest7⟩ := run_bind_inv rest6
    obtain ⟨test, s8, run8, rest8⟩ := run_bind_inv rest7
    obtain ⟨⟨⟩, s9, run9, rest9⟩ := run_bind_inv rest8
    obtain ⟨⟨⟩, s10, run10, rest10⟩ := run_bind_inv rest9
    obtain ⟨⟨last, body'⟩, s11, run11, rest11⟩ := run_bind_inv rest10
    obtain ⟨ended, s12, run12, rest12⟩ := run_bind_inv rest11
    obtain ⟨⟨⟩, s13, run13, run14⟩ := run_bind_inv rest12
    cases run14
    have hmid : s6.errors = s1.errors := by
      rw [build_errors run6, build_errors run5, build_errors run4, build_errors run3,
        build_errors run2]
    have hmid' : s10.errors = s8.errors := by rw [build_errors run10, branchOn_errors run9]
    have hend : s'.errors = s11.errors := by rw [build_errors run13, fallThrough_errors run12]
    have hgrow1 : s.errors <+: s1.errors := (tells_assign line dest value s s1 _ run1).1
    have hgrow8 : s1.errors <+: s8.errors :=
      hmid ▸ (expr_tells cond s6 s7 _ run7).1.trans (tells_condition _ value'' s7 s8 _ run8).1
    have hgrow11 : s8.errors <+: s11.errors :=
      hmid' ▸ (block_tells body none s10 s11 _ run11).1
    obtain ⟨hsame, hsame11⟩ :=
      Stage.errors_between (hgrow1.trans hgrow8) hgrow11 (hend.symm.trans herrors)
    obtain ⟨hsame1, hsame8⟩ := Stage.errors_between hgrow1 hgrow8 hsame
    have hinit := assign_performs hr.1 hr.2.1 hs hscene run1 hsame1
    obtain ⟨u, uty, c, rfl, rfl⟩ := condition_some run7 run8 (hsame8.trans hmid.symm)
    have htest : ∀ {w1 : Spot}, s6.At w1 → Scene env s6 →
        ∃ w2, Tests env s6 w1 s8 w2 (fun W => execTest W env cond) c := by
      intro w1 hs1 hscene1
      exact condition_tests hs1 (expr_computes cond hr.2.2.1 hs1.toIn (hscene1.suits _) run7) run8
    simp only [Stmt.exec, Stmt.declares]
    refine loop_simulates hs hscene hinit run2 run3 run4 run5 run6 htest run9 run10 ?_ run12 run13
    intro w1 hs1 hscene1
    exact block_simulates body hp hr.2.2.2 hs1 hscene1 run11 (hsame11.trans hmid'.symm)
  | .result value line, env, s, s', w, r, _, _, hs, hscene, run, herrors => by
    rw [Stmt.lower] at run
    obtain ⟨_, _, hget, rest1⟩ := run_bind_inv run
    cases hget
    have hnone : s.returnType? = none := by rw [Lowering.returnType?, hscene.frames]
    rw [hnone] at rest1
    cases rest1
    exact absurd herrors (by simp)
  | .procedure _ _ _, _, _, _, _, _, hp, _, _, _, _, _ => hp.elim

/-- **The code of statements in order** does what they do. -/
theorem block_simulates : ∀ (stmts : List Stmt) {env : Env} {s s' : Lowering} {w : Spot}
    {last : Result} {r : Result × List Stmt}, BlockProcedureFree stmts → BlockInRange stmts →
    s.At w → Scene env s → lowerBlock last stmts s = .ok (r, s') → s'.errors = s.errors →
    Simulates env s w (blockDeclares env stmts) s' fun W n => execBlock W n env stmts
  | [], env, s, s', w, last, r, _, _, hs, hscene, run, _ => by
    rw [lowerBlock] at run
    cases run
    simp only [execBlock, blockDeclares]
    exact simulates_nil hs hscene
  | stmt :: stmts, env, s, s', w, last, r, hp, hr, hs, hscene, run, herrors => by
    rw [lowerBlock] at run
    obtain ⟨⟨result, stmt'⟩, s1, run1, rest1⟩ := run_bind_inv run
    obtain ⟨⟨last', stmts'⟩, s2, run2, run3⟩ := run_bind_inv rest1
    cases run3
    have hgrow1 := (stmt_tells stmt s s1 _ run1).1
    have hgrow2 := (block_tells stmts _ s1 s' _ run2).1
    obtain ⟨hsame1, hsame2⟩ := Stage.errors_between hgrow1 hgrow2 herrors
    simp only [execBlock, blockDeclares]
    refine (stmt_simulates stmt hp.1 hr.1 hs hscene run1 hsame1).seq ?_
    intro w1 hs1 hscene1
    exact block_simulates stmts hp.2 hr.2 hs1 hscene1 run2 hsame2

end

end ProcLang
