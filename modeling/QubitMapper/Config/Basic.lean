import QubitMapper.Device.Spec
import QubitMapper.Routing.Options
import QubitMapper.Yaml.Reader

/-!
# Configurations

A configuration names a device and sets the routing options. It is a YAML mapping; what it leaves
out keeps its usual value, and what it says must make sense.
-/

namespace QubitMapper

/-- A device, as it is named in a text, and how to route onto it. -/
structure Config where
  device : String := "path"
  options : Options := {}

/-- Why there is no configuration. -/
inductive ConfigError where
  | unreadable (path : String) (error : FileError)
  | malformed
  | spec (error : SpecError)
  | options (error : OptionsError)

/-- The wording of an error. -/
def ConfigError.message : ConfigError → String
  | unreadable path error =>
      s!"Invalid pass configuration: cannot read {path}: {error.message}"
  | malformed => "Invalid pass configuration: malformed document"
  | spec e => e.message
  | options e => e.message

/-- The options in a document. -/
def Options.ofYaml? (y : Yaml) : Option Options := do
  let [size, weight, step, period, release] ← y.fields
    ["extended_layer_size", "extended_layer_weight", "decay_delta", "rounds_decay_reset",
      "release_valve"] | none
  let usual : Options := {}
  let lookaheadSize ← Yaml.defaulted usual.lookaheadSize (Yaml.natBelow? Text.limit64) size
  let lookaheadWeight ← Yaml.defaulted usual.lookaheadWeight Yaml.float? weight
  let decayStep ← Yaml.defaulted usual.decayStep Yaml.float? step
  let decayPeriod ← Yaml.defaulted usual.decayPeriod (Yaml.natBelow? Text.limit32) period
  let releaseAfter ← Yaml.defaulted usual.releaseAfter (Yaml.natBelow? Text.limit32) release
  some { lookaheadSize, lookaheadWeight, decayStep, decayPeriod, releaseAfter }

namespace Config

/-- The configuration in a document. -/
def ofYaml? (y : Yaml) : Option Config := do
  let [device, options] ← y.fields ["device", "sabre"] | none
  let device ← Yaml.defaulted "path" Yaml.text? device
  let options ← Yaml.defaulted {} Options.ofYaml? options
  some { device, options }

/-- The specification of the device. -/
def spec (c : Config) : Except ConfigError Spec := (Spec.parse c.device).mapError .spec

/-- The configuration makes sense: the device is specified and the options can be used. -/
def validate (c : Config) : Except ConfigError Unit := do
  let _ ← c.spec
  c.options.validate.mapError .options

/-- The configuration that a text stands for. -/
def parse (text : String) : Except ConfigError Config :=
  match (Yaml.parse text).bind ofYaml? with
  | none => .error .malformed
  | some c => do
      c.validate
      return c

/-- The configuration in a file. -/
def load (files : FileReader) (path : String) : Except ConfigError Config :=
  match files path with
  | .error e => .error (.unreadable path e)
  | .ok text => parse text

end Config

end QubitMapper
