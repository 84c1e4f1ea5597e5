import Retarget.Command

/-!
# Formatting files

A formatter is a command that is run once, with all files worth formatting as
further arguments.  Files are told apart by the steps of their paths.
-/

namespace Retarget.Formatting

/-- The extensions of files worth formatting. -/
def extensions : List String :=
  ["js", "cjs", "mjs", "ts", "cts", "mts", "jsx", "tsx", "json"]

/-- Whether a file is worth formatting. -/
def wanted (p : Path) : Bool :=
  p.extension?.any extensions.contains

/-- The first of the paths that say the same. -/
def distinct (ps : List Path) : List Path :=
  ps.foldl (fun seen p => if seen.any fun q => q.steps = p.steps then seen else seen ++ [p]) []

/-- The files worth formatting, in order and each once. -/
def formattable (ps : List Path) : List Path :=
  distinct (ps.filter wanted)

/-- The formatter that is used unless another one is named. -/
def defaultFormatter : Command :=
  ⟨"npx", ["prettier", "--write"], Command.defaultLimit⟩

/-- The wording of a code. -/
def showCode : Option Nat → String
  | some n => "Some(" ++ toString n ++ ")"
  | none => "None"

/-- Why a formatter that did not succeed failed: what it complained about, or
else its code. -/
def complaint (o : Command.Output) : String :=
  match Text.trim o.stderr with
  | "" => "exited with " ++ showCode o.code
  | s => s

/-- Formats files of a directory and gives their number. -/
def run (programs : Programs) (formatter : Command) (d : Disk) (ps : List Path) :
    Disk × Except Failure Nat :=
  match formattable ps with
  | [] => (d, .ok 0)
  | files =>
    match (formatter.withArgs (files.map Path.text)).run programs d with
    | (d, .error f) => (d, .error f)
    | (d, .ok o) =>
      if o.success then (d, .ok files.length)
      else (d, .error (.process formatter.text (complaint o)))

/-- A formatter that has nothing to format leaves the directory alone. -/
theorem run_of_formattable_eq_nil {programs : Programs} {formatter : Command} {d : Disk}
    {ps : List Path} (h : formattable ps = []) :
    run programs formatter d ps = (d, .ok 0) := by
  simp [run, h]

end Retarget.Formatting
