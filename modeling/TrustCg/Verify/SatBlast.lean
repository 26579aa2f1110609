import TrustCg.Verify.Smt

/-!
# Bit-blasting an equivalence (`sat_blast.rs`)

An obligation is turned into clauses over its input bits that are to be unsatisfiable when
the two sides agree.

* `Blaster` : the clauses so far; every gate gets a fresh variable and its own clauses.
* `Blaster.blastExpr` : the bits of an expression, constants folded.
* `MiterCnf.checkProvenance` : the clauses are those of the recorded gates.
* `blastEquivalenceMiter` : the whole.

The blaster counts variables without a bound; the source keeps literals in `i32`.
`check_provenance` takes any miter, so there literals are negated as an `i32` is.
-/

namespace TrustCg.Verify.SatBlast

/-! ## Gates -/

/-- What a gate was made for. -/
inductive MiterSide where
  | ir | machine | diff
deriving DecidableEq

/-- The side in a report. -/
def MiterSide.tag : MiterSide → String
  | .ir => "ir"
  | .machine => "mc"
  | .diff => "diff"

/-- The kinds of gates. -/
inductive GateKind where
  | xor2 | xor3 | and2 | maj3
deriving DecidableEq

/-- The kind in a report. -/
def GateKind.tag : GateKind → String
  | .xor2 => "xor2"
  | .xor3 => "xor3"
  | .and2 => "and2"
  | .maj3 => "maj3"

/-- The number of inputs. -/
def GateKind.arity : GateKind → ℕ
  | .xor2 | .and2 => 2
  | .xor3 | .maj3 => 3

/-- `eval`: the truth table. -/
def GateKind.eval : GateKind → List Bool → Bool
  | .xor2, [a, b] => a ^^ b
  | .xor3, [a, b, c] => a ^^ (b ^^ c)
  | .and2, [a, b] => a && b
  | .maj3, [a, b, c] => a && b || a && c || b && c
  | _, _ => false

/-- A gate: its output is the value of its kind on its inputs, all literals. -/
structure GateRecord where
  side : MiterSide
  kind : GateKind
  out : ℤ
  ins : List ℤ
deriving DecidableEq

/-- Negation of an `i32`: the least one is its own negation. -/
def negLit (l : ℤ) : ℤ := if l = -2 ^ 31 then l else -l

/-- `abs` of an `i32`. -/
def absLit (l : ℤ) : ℤ := if l < 0 then negLit l else l

/-- `canonical_gate_clauses`, for a negation of literals; another number of inputs fails an
assertion. -/
def canonicalGateClauses (neg : ℤ → ℤ) (kind : GateKind) (o : ℤ) (ins : List ℤ) :
    List (List ℤ) :=
  match kind, ins with
  | .xor2, [a, b] => [[neg a, neg b, neg o], [a, b, neg o], [neg a, b, o], [a, neg b, o]]
  | .xor3, [a, b, c] =>
    [[neg a, neg b, neg c, o], [neg a, neg b, c, neg o], [neg a, b, neg c, neg o],
      [neg a, b, c, o], [a, neg b, neg c, neg o], [a, neg b, c, o], [a, b, neg c, o],
      [a, b, c, neg o]]
  | .and2, [a, b] => [[neg a, neg b, o], [a, neg o], [b, neg o]]
  | .maj3, [a, b, c] =>
    [[neg a, neg b, o], [neg a, neg c, o], [neg b, neg c, o], [a, b, neg o], [a, c, neg o],
      [b, c, neg o]]
  | _, _ => []

/-- One blasted bit. -/
inductive Bit where
  | const (b : Bool)
  | lit (l : ℤ)
deriving DecidableEq

/-- The other bit. -/
def Bit.negate : Bit → Bit
  | .const b => .const (!b)
  | .lit l => .lit (-l)

/-- The clause builder. -/
structure Blaster where
  nextVar : ℕ
  clauses : List (List ℤ)
  clauseTags : List (Option ℕ)
  gates : List GateRecord
  side : MiterSide

namespace Blaster

/-- A gate with a fresh output. -/
def emitGate (s : Blaster) (kind : GateKind) (ins : List ℤ) : Bit × Blaster :=
  let out : ℤ := s.nextVar + 1
  let new := canonicalGateClauses Neg.neg kind out ins
  (.lit out, { s with
    nextVar := s.nextVar + 1
    gates := s.gates ++ [⟨s.side, kind, out, ins⟩]
    clauses := s.clauses ++ new
    clauseTags := s.clauseTags ++ new.map fun _ => some s.gates.length })

/-- Exclusive or, constants folded. -/
def xor2 (s : Blaster) : Bit → Bit → Bit × Blaster
  | .const a, .const b => (.const (a ^^ b), s)
  | .const false, l | l, .const false => (l, s)
  | .const true, l | l, .const true => (l.negate, s)
  | .lit a, .lit b => s.emitGate .xor2 [a, b]

/-- The bit, negated on demand. -/
def negateIf (c : Bool) (r : Bit × Blaster) : Bit × Blaster := (if c then r.1.negate else r.1, r.2)

/-- The sum bit. -/
def xor3 (s : Blaster) : Bit → Bit → Bit → Bit × Blaster
  | .const a, y, z => negateIf a (s.xor2 y z)
  | x, .const b, z => negateIf b (s.xor2 x z)
  | x, y, .const c => negateIf c (s.xor2 x y)
  | .lit a, .lit b, .lit c => s.emitGate .xor3 [a, b, c]

/-- Conjunction, constants folded. -/
def and2 (s : Blaster) : Bit → Bit → Bit × Blaster
  | .const false, _ | _, .const false => (.const false, s)
  | .const true, l | l, .const true => (l, s)
  | .lit a, .lit b => s.emitGate .and2 [a, b]

/-- Disjunction, by De Morgan. -/
def or2 (s : Blaster) (x y : Bit) : Bit × Blaster := negateIf true (s.and2 x.negate y.negate)

/-- The carry bit. -/
def maj3 (s : Blaster) : Bit → Bit → Bit → Bit × Blaster
  | .const false, y, z | y, .const false, z | y, z, .const false => s.and2 y z
  | .const true, y, z | y, .const true, z | y, z, .const true => s.or2 y z
  | .lit a, .lit b, .lit c => s.emitGate .maj3 [a, b, c]

/-- `ripple_add`; the carry out of the last bit is not computed. -/
def rippleAdd (s : Blaster) : List Bit → List Bit → Bit → List Bit × Blaster
  | x :: xs, y :: ys, carry =>
    let sum := s.xor3 x y carry
    if xs = [] then ([sum.1], sum.2)
    else
      let next := sum.2.maj3 x y carry
      let rest := rippleAdd next.2 xs ys next.1
      (sum.1 :: rest.1, rest.2)
  | _, _, _ => ([], s)

/-- `bitwise`; `maj3` stands for the disjunction. -/
def bitwise (s : Blaster) (op : GateKind) : List Bit → List Bit → List Bit × Blaster
  | x :: xs, y :: ys =>
    let first := match op with
      | .and2 => s.and2 x y
      | .xor2 => s.xor2 x y
      | _ => s.or2 x y
    let rest := bitwise first.2 op xs ys
    (first.1 :: rest.1, rest.2)
  | _, _ => ([], s)

/-- The operators of the fragment, with the name in their errors. -/
def binop : BvBinOp → Option (String × (Blaster → List Bit → List Bit → List Bit × Blaster))
  | .add => some ("bvadd", fun s a b => s.rippleAdd a b (.const false))
  | .sub => some ("bvsub", fun s a b => s.rippleAdd a (b.map Bit.negate) (.const true))
  | .and => some ("bvand", fun s => s.bitwise .and2)
  | .or => some ("bvor", fun s => s.bitwise .maj3)
  | .xor => some ("bvxor", fun s => s.bitwise .xor2)
  | _ => none

end Blaster

/-- Why blasting fails. -/
inductive BlastError where
  | unsupportedExpr
  | unsupportedObligation (text : String)
  | widthMismatch (text : String)
  | provenanceMismatch (text : String)

/-- The variables of the declared inputs, lowest bit first. -/
abbrev InputVars := List (String × List ℕ)

/-- `blast_expr`.  Shifting a `u64` by 64 or more shifts by the amount modulo 64. -/
def Blaster.blastExpr (inputs : InputVars) :
    SmtExpr → Blaster → Except BlastError (List Bit × Blaster)
  | .var name width, s =>
    match inputs.lookup name with
    | none =>
      .error (.unsupportedObligation s!"expression references undeclared input '{name}'")
    | some ids =>
      let declared := ids.length
      if declared ≠ width then
        .error (.widthMismatch s!"input '{name}' declared {declared} bits, used at {width}")
      else .ok (ids.map fun (id : ℕ) => .lit (id : ℤ), s)
  | .bvConst value width, s =>
    .ok ((List.range width).map fun i => .const (value.getLsbD (i % 64)), s)
  | .bvBin op lhs rhs _, s =>
    match binop op with
    | none => .error .unsupportedExpr
    | some (name, emit) =>
      (blastExpr inputs lhs s).bind fun a => (blastExpr inputs rhs a.2).bind fun b =>
        let (m, n) := (a.1.length, b.1.length)
        if m ≠ n ∨ a.1 = [] then .error (.widthMismatch s!"{name} operands are {m} and {n} bits")
        else .ok (emit b.2 a.1 b.1)
  | .bvNeg operand width, s =>
    (blastExpr inputs operand s).bind fun a =>
      let n := a.1.length
      if n ≠ width then
        .error (.widthMismatch s!"bvneg operand is {n} bits, node declares {width}")
      else
        .ok (a.2.rippleAdd (a.1.map Bit.negate) (List.replicate n (.const false)) (.const true))
  | _, _ => .error .unsupportedExpr

/-- The literal of a bit. -/
def bitLit : Bit → ℤ
  | .lit l => l
  | .const b => if b then 2 ^ 31 - 1 else -2 ^ 31

/-! ## Miters -/

/-- What the clauses are said to mean. -/
structure MiterProvenance where
  ruleName : String
  width : ℕ
  numVars : ℕ
  inputs : InputVars
  gates : List GateRecord
  irOut : List ℤ
  machineOut : List ℤ
  diff : List ℤ

/-- Clauses with their gates. -/
structure MiterCnf where
  numVars : ℕ
  clauses : List (List ℤ)
  clauseTags : List (Option ℕ)
  inputs : InputVars
  ruleName : String
  provenance : MiterProvenance

/-- Fails with the text unless the test holds. -/
def require (test : Bool) (text : String) : Except BlastError Unit :=
  if test then .ok () else .error (.provenanceMismatch text)

/-- A clause in sorted form. -/
def canon (clause : List ℤ) : List ℤ := clause.insertionSort (· ≤ ·)

/-- The clauses with a tag, in sorted form. -/
def MiterCnf.tagged (m : MiterCnf) (tag : Option ℕ) : List (List ℤ) :=
  ((m.clauses.zip m.clauseTags).filter fun e => e.2 = tag).map fun e => canon e.1

/-- The clauses are those of the gates. -/
def MiterCnf.checkProvenance (m : MiterCnf) : Except BlastError Unit := do
  let p := m.provenance
  require (m.clauseTags.length = m.clauses.length) "clause_tags length disagrees with clauses"
  m.clauseTags.forM fun tag =>
    let g := tag.getD 0
    require (tag.all fun g => g < p.gates.length) s!"clause tags missing gate {g}"
  p.gates.zipIdx.forM fun (gate, g) => do
    require (gate.ins.length = gate.kind.arity) s!"gate {g} arity mismatch"
    let (side, kind) := (gate.side.tag, gate.kind.tag)
    require (((canonicalGateClauses negLit gate.kind gate.out gate.ins).map canon).isPerm
      (m.tagged (some g))) s!"gate {g} ({side} {kind}) clauses do not match its canonical CNF"
  let n := (m.tagged none).length
  require (n = 1) s!"expected exactly one disequality clause, found {n}"
  require (m.tagged none = [canon p.diff])
    "disequality clause is not the recorded diff-literal disjunction"
  require (p.irOut.length = p.machineOut.length ∧ p.irOut.length = p.diff.length)
    "ir_out / machine_out / diff length disagreement"
  p.diff.zipIdx.forM fun (d, i) =>
    match p.gates.find? fun gate => gate.side = .diff ∧ gate.out = absLit d with
    | none => .error (.provenanceMismatch s!"diff bit {i} has no diff gate")
    | some gate =>
      require (gate.kind = .xor2 ∧ gate.ins = [p.irOut.getD i 0, p.machineOut.getD i 0])
        s!"diff bit {i} is not Xor2(ir_out[{i}], machine_out[{i}])"

/-- What the miter is built from. -/
structure ProofObligation where
  name : String
  trustIrExpr : SmtExpr
  aarch64Expr : SmtExpr
  inputs : List (String × ℕ)
  preconditions : List SmtExpr
  fpInputs : List (String × ℕ × ℕ)

/-- The variables of the inputs, in the order of their declarations. -/
def declareInputs : List (String × ℕ) → InputVars → ℕ → Except BlastError (InputVars × ℕ)
  | [], inputs, nextVar => .ok (inputs, nextVar)
  | (name, width) :: rest, inputs, nextVar =>
    if inputs.any fun input => input.1 = name then
      .error (.unsupportedObligation s!"duplicate input '{name}'")
    else
      declareInputs rest (inputs ++ [(name, List.range' (nextVar + 1) width)]) (nextVar + width)

/-- The comparison of the sides, bit by bit. -/
def Blaster.diffBits : Blaster → List (Bit × Bit) → List Bit × Blaster
  | s, [] => ([], s)
  | s, p :: ps =>
    let d := s.xor2 p.1 p.2
    let rest := diffBits d.2 ps
    (d.1 :: rest.1, rest.2)

/-- The literal of a bit that has one. -/
def Bit.asLit : Bit → Option ℤ
  | .lit l => some l
  | .const _ => none

/-- The miter of two blasted sides. -/
def assemble (name : String) (inputs : InputVars) (ir machine : List Bit) (s : Blaster) :
    Except BlastError MiterCnf :=
  let d := Blaster.diffBits { s with side := .diff } (ir.zip machine)
  let diffLits := d.1.filterMap Bit.asLit
  let someDiffConstTrue := d.1.contains (.const true)
  let (clauses, tags) := if someDiffConstTrue then (d.2.clauses, d.2.clauseTags)
    else (d.2.clauses ++ [diffLits], d.2.clauseTags ++ [none])
  let miter : MiterCnf := ⟨d.2.nextVar, clauses, tags, inputs, name,
    ⟨name, ir.length, d.2.nextVar, inputs, d.2.gates, ir.map bitLit, machine.map bitLit, diffLits⟩⟩
  if someDiffConstTrue then .ok miter else miter.checkProvenance.bind fun _ => .ok miter

/-- The miter of an obligation. -/
def blastEquivalenceMiter (ob : ProofObligation) : Except BlastError MiterCnf :=
  let (name, count) := (ob.name, ob.preconditions.length)
  if count ≠ 0 then
    .error (.unsupportedObligation
      s!"obligation '{name}' carries {count} precondition(s); the CNF lane does not model them")
  else if ob.fpInputs ≠ [] then
    .error (.unsupportedObligation s!"obligation '{name}' carries floating-point inputs")
  else if ob.inputs = [] then
    .error (.unsupportedObligation
      s!"obligation '{name}' declares no inputs; a closed miter would be vacuous")
  else
    (declareInputs ob.inputs [] 0).bind fun decl =>
      (Blaster.blastExpr decl.1 ob.trustIrExpr ⟨decl.2, [], [], [], .ir⟩).bind fun ir =>
        (Blaster.blastExpr decl.1 ob.aarch64Expr { ir.2 with side := .machine }).bind fun mc =>
          let (m, n) := (ir.1.length, mc.1.length)
          if m ≠ n ∨ ir.1 = [] then
            .error (.widthMismatch s!"trust_ir side is {m} bits, machine side is {n} bits")
          else assemble name decl.1 ir.1 mc.1 mc.2

end TrustCg.Verify.SatBlast
