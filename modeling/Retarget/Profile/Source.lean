import Retarget.Disk
import Retarget.Profile.YamlDocument
import Retarget.Yaml.Writer

/-!
# Where profiles come from

A profile is built in, or it stands in a file: a JSON document if the extension
says so, else a YAML document.  A profile from a file is used only if it is
valid.
-/

namespace Retarget.Profile

/-- The YAML document of a profile. -/
def toYaml (p : Profile) : String :=
  match p.toJson with
  | .object ms => Yaml.write ms
  | _ => ""

/-- The valid profile that a YAML text holds. -/
def ofYamlText (text : String) : Except Failure Profile :=
  ofYaml text >>= checked

/-- The valid profile in a file. -/
def load (d : Disk) (p : Path) : Except Failure Profile :=
  match d.readText p.location with
  | .error f => .error f.failure
  | .ok text => (if p.extension? = some "json" then ofJson text else ofYaml text) >>= checked

/-- The profile of a name: one that is built in, or that of a file. -/
def resolve (d : Disk) (name : String) : Except Failure Profile :=
  match builtin? name with
  | some p => .ok p
  | none =>
    if d.isFile (Path.mk name).location then load d ⟨name⟩
    else
      .error (.invalidProfile
        ("'" ++ name ++ "' is neither a built-in profile nor a profile file"))

end Retarget.Profile
