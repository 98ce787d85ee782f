/-!
# Identifiers and their counters

Pattern nodes, variables and scans are numbered by 32-bit words.  The numbers of one compilation
are handed out by three independent counters, each of which wraps around after its last word.

## Main definitions

* `Code`, `Var`, `ScanId` — the numbers of pattern nodes, variables and scans.
* `Counters` — the next number of each kind.
* `Counters.freshCode`, `Counters.freshVar`, `Counters.freshScan` — taking a number.
-/

namespace TwigAlgebra

/-- The code of a pattern node; copies of a pattern keep it. -/
structure Code where
  /-- The number itself. -/
  val : UInt32
  deriving DecidableEq, Repr, Inhabited

/-- A query variable; columns refer to variables by this number. -/
structure Var where
  /-- The number itself. -/
  val : UInt32
  deriving DecidableEq, Repr, Inhabited

/-- A scan of a plan, the owner of its document-level columns. -/
structure ScanId where
  /-- The number itself. -/
  val : UInt32
  deriving DecidableEq, Repr, Inhabited

/-- A code is written as its bare number. -/
def Code.text (c : Code) : String := toString c.val.toNat

/-- A variable is written with a dollar sign. -/
def Var.text (v : Var) : String := "$" ++ toString v.val.toNat

/-- A scan is written with its kind in front. -/
def ScanId.text (s : ScanId) : String := "scan#" ++ toString s.val.toNat

/-- The next number of each kind. -/
structure Counters where
  /-- The next node code. -/
  code : Code
  /-- The next variable. -/
  var : Var
  /-- The next scan. -/
  scan : ScanId
  deriving DecidableEq, Repr, Inhabited

namespace Counters

/-- Counters whose first code is `first`; variables and scans start at zero. -/
def startingAt (first : Code) : Counters := ⟨first, ⟨0⟩, ⟨0⟩⟩

/-- The counters of a compilation that nobody numbered before; the first code is one. -/
def initial : Counters := startingAt ⟨1⟩

/-- Takes a node code. -/
def freshCode (c : Counters) : Code × Counters := (c.code, { c with code := ⟨c.code.val + 1⟩ })

/-- Takes a variable. -/
def freshVar (c : Counters) : Var × Counters := (c.var, { c with var := ⟨c.var.val + 1⟩ })

/-- Takes a scan number. -/
def freshScan (c : Counters) : ScanId × Counters := (c.scan, { c with scan := ⟨c.scan.val + 1⟩ })

@[simp] theorem freshCode_fst (c : Counters) : c.freshCode.1 = c.code := rfl

@[simp] theorem freshCode_code (c : Counters) : c.freshCode.2.code = ⟨c.code.val + 1⟩ := rfl

@[simp] theorem freshCode_var (c : Counters) : c.freshCode.2.var = c.var := rfl

@[simp] theorem freshCode_scan (c : Counters) : c.freshCode.2.scan = c.scan := rfl

@[simp] theorem freshVar_fst (c : Counters) : c.freshVar.1 = c.var := rfl

@[simp] theorem freshVar_code (c : Counters) : c.freshVar.2.code = c.code := rfl

@[simp] theorem freshScan_fst (c : Counters) : c.freshScan.1 = c.scan := rfl

@[simp] theorem freshScan_code (c : Counters) : c.freshScan.2.code = c.code := rfl

end Counters

end TwigAlgebra
