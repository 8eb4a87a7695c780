import QubitMapper.Config.Basic
import QubitMapper.Pass.Connectivity
import QubitMapper.Pass.Mapping

/-!
# The mapping pipeline

The usual passes: mapping onto a target and, unless it is turned off, the connectivity check.
-/

namespace QubitMapper

/-- What the pipeline is to do. -/
structure Pipeline where
  target : Target := { spec := .path none }
  verify : Bool := true

namespace Pipeline

/-- The pipeline with the device and the options of a configuration. -/
def withConfig (p : Pipeline) (c : Config) : Except ConfigError Pipeline := do
  c.validate
  return { p with target := { spec := ← c.spec, options := c.options } }

/-- The pipeline with another device. -/
def withSpec (p : Pipeline) (spec : Spec) : Pipeline :=
  { p with target := { p.target with spec } }

/-- The pipeline with other options. -/
def withOptions (p : Pipeline) (options : Options) : Pipeline :=
  { p with target := { p.target with options } }

/-- The passes of the pipeline. -/
def passes (files : FileReader) (p : Pipeline) : List Pass :=
  Mapping.pass files p.target :: if p.verify then [Connectivity.pass] else []

/-- The pipeline run on a kernel, with no properties at the start. -/
def run (files : FileReader) (p : Pipeline) (k : Kernel) : Except MappingError Compilation :=
  match runPasses (p.passes files) ⟨k, .empty⟩ with
  | .ok _ c => .ok c
  | .error e _ => .error e

end Pipeline

end QubitMapper
