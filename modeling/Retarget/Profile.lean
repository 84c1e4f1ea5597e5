import Retarget.Json
import Retarget.Plugin
import Retarget.Relocation.Fragment
import Retarget.Target.Reduction

/-!
# Profiles

A `Profile` holds everything that varies between executors: which executor is
retired, which option names the old config file, which options go, and how the
new config looks.  `Profile.validate` finds the mistakes that would spoil what
is written.
-/

namespace Retarget

/-- The definition of a migration. -/
structure Profile where
  name : String
  description : String
  /-- the executor whose targets are migrated -/
  executor : String
  /-- the option that holds the path of the old config; without one no config
  is written -/
  legacyKey : Option String
  /-- options that the plugin supplies -/
  implied : List String
  /-- options that go with a warning -/
  deprecated : OrderedMap String String
  /-- the keys whose strings are paths, if not the usual ones -/
  pathKeys : Option (List String)
  plugins : List Plugin
  /-- a comment for the top of the new config -/
  header : Option String
  archiveSuffix : String
  deriving DecidableEq, Repr

namespace Profile

/-- A profile that takes nothing out. -/
def ofExecutor (name executor : String) : Profile :=
  ⟨name, "", executor, none, [], [], none, [], none, "old"⟩

/-- Adds an option that the plugin supplies. -/
def addImplied (p : Profile) (key : String) : Profile :=
  if p.implied.contains key then p else { p with implied := p.implied ++ [key] }

/-- Adds an option that goes with a warning. -/
def addDeprecated (p : Profile) (key message : String) : Profile :=
  { p with deprecated := OrderedMap.insert p.deprecated key message }

/-- Adds a plugin. -/
def addPlugin (p : Profile) (x : Plugin) : Profile :=
  { p with plugins := p.plugins ++ [x] }

/-- What to do about a plugin without its call. -/
def svgrComment : String :=
  "Uncomment this line if you don't want to use SVGR\nSee: https://react-svgr.com/\nsvgr: false"

/-- What to do about a proxy. -/
def proxyWarning : String :=
  "Encountered 'proxyConfig' in project.json when migrating '@nx/vite:preview-server' for " ++
    "'\x7bproject\x7d'. You will need to copy the contents of this file to your " ++
    "\x7broot\x7d/vite.config.ts 'server.proxy' property."

/-- The profile for webpack builds. -/
def webpack : Profile :=
  { ofExecutor "webpack" "@nx/webpack:webpack" with
    description := "Convert withNx/withReact webpack configs to standalone webpack plugins"
    legacyKey := some "webpackConfig"
    plugins :=
      [⟨"withNx", "NxAppWebpackPlugin", "@nx/webpack/app-plugin", none⟩,
       ⟨"withReact", "NxReactWebpackPlugin", "@nx/react/webpack-plugin", some svgrComment⟩]
    header := some "This file was migrated using target-migrate --profile webpack" }

/-- The profile for vite preview servers. -/
def vitePreview : Profile :=
  { ofExecutor "vite-preview" "@nx/vite:preview-server" with
    description := "Remove options the vite plugin infers from preview-server targets"
    implied := ["buildTarget", "staticFilePath"]
    deprecated := [("proxyConfig", proxyWarning)] }

/-- The profiles that need no file. -/
def builtins : List Profile :=
  [webpack, vitePreview]

/-- The profile of a name that needs no file. -/
def builtin? (name : String) : Option Profile :=
  builtins.find? fun p => p.name = name

/-- What a profile takes out of targets. -/
def reduction (p : Profile) : Reduction :=
  ⟨p.legacyKey, p.implied, p.deprecated⟩

/-- The functions whose calls feed plugins. -/
def callees (p : Profile) : List String :=
  p.plugins.map Plugin.callee

/-- The keys whose strings are paths. -/
def keys (p : Profile) : List String :=
  match p.pathKeys with
  | some ks => Extraction.distinct ks
  | none => Relocation.defaultKeys

/-- How the new config is rendered. -/
def config (p : Profile) : PluginConfig :=
  ⟨p.plugins, p.header, p.archiveSuffix⟩

/-! ### Validity -/

/-- Whether a character can open an identifier. -/
def opensIdentifier (c : Char) : Bool :=
  c.isAlpha || c = '_' || c = '$'

/-- Whether a text is an identifier of ASCII characters. -/
def isIdentifier (s : String) : Bool :=
  match s.toList with
  | [] => false
  | c :: rest => opensIdentifier c && rest.all fun c => opensIdentifier c || c.isDigit

/-- Whether a text holds anything but blanks. -/
def isFilled (s : String) : Bool :=
  s.toList.any fun c => !Text.isBlank c

/-- Whether a suffix is a plain name. -/
def isPlainSuffix (s : String) : Bool :=
  !s.isEmpty && s.toList.all fun c => c ≠ '/' && c ≠ '\\' && c ≠ '.'

/-- Whether the name of a module can be quoted. -/
def isModuleName (s : String) : Bool :=
  !s.isEmpty && s.toList.all fun c => c ≠ '\'' && c ≠ '\n'

/-- What is wrong with a profile. -/
inductive Flaw where
  | noExecutor
  | badSuffix (suffix : String)
  | noLegacyKey
  | badIdentifier (name : String)
  | badModule (name : String)
  | repeatedCallee (name : String)
  deriving DecidableEq, Repr

/-- The wording of a flaw. -/
def Flaw.message : Flaw → String
  | noExecutor => "executor is empty"
  | badSuffix s => "archive suffix '" ++ s ++ "' is not a plain name"
  | noLegacyKey => "plugins need a legacy_config_key to read fragments from"
  | badIdentifier n => "'" ++ n ++ "' is not a valid identifier"
  | badModule n => "module '" ++ n ++ "' cannot be required"
  | repeatedCallee n => "callee '" ++ n ++ "' is listed twice"

/-- The first flaw of plugins, given the callees before them. -/
def pluginFlaw (seen : List String) : List Plugin → Option Flaw
  | [] => none
  | x :: rest =>
    if !isIdentifier x.callee then some (.badIdentifier x.callee)
    else if !isIdentifier x.className then some (.badIdentifier x.className)
    else if !isModuleName x.moduleName then some (.badModule x.moduleName)
    else if seen.contains x.callee then some (.repeatedCallee x.callee)
    else pluginFlaw (x.callee :: seen) rest

/-- The first flaw of a profile with a name. -/
def flaw? (p : Profile) : Option Flaw :=
  if !isFilled p.executor then some .noExecutor
  else if !isPlainSuffix p.archiveSuffix then some (.badSuffix p.archiveSuffix)
  else if !p.plugins.isEmpty && p.legacyKey.isNone then some .noLegacyKey
  else pluginFlaw [] p.plugins

/-- Refuses a profile that would spoil what is written. -/
def validate (p : Profile) : Except Failure Unit :=
  if !isFilled p.name then .error (.invalidProfile "profile name is empty")
  else match p.flaw? with
    | some f => .error (.invalidProfile (p.name ++ ": " ++ f.message))
    | none => .ok ()

/-- A profile that is valid. -/
def checked (p : Profile) : Except Failure Profile :=
  match p.validate with
  | .ok () => .ok p
  | .error f => .error f

/-! ### Documents -/

/-- The names of the fields of a profile's document. -/
inductive Field where
  | name
  | description
  | executor
  | legacyKey
  | implied
  | deprecated
  | pathKeys
  | plugins
  | header
  | archiveSuffix
  deriving DecidableEq, Repr

namespace Field

/-- The spelling of a field. -/
def text : Field → String
  | name => "name"
  | description => "description"
  | executor => "executor"
  | legacyKey => "legacy_config_key"
  | implied => "implied_keys"
  | deprecated => "deprecated_keys"
  | pathKeys => "path_keys"
  | plugins => "plugins"
  | header => "header"
  | archiveSuffix => "archive_suffix"

/-- All fields in the order of a document. -/
def all : List Field :=
  [name, description, executor, legacyKey, implied, deprecated, pathKeys, plugins, header,
   archiveSuffix]

/-- The field with a spelling. -/
def ofText? (s : String) : Option Field :=
  all.find? fun f => f.text = s

end Field

/-- A list of strings as a value. -/
def stringsJson (xs : List String) : Json :=
  .array (xs.map .string)

/-- A member that is there only with a value. -/
def optional (f : Field) (v : Option Json) : Members :=
  match v with
  | some j => [(f.text, j)]
  | none => []

/-- A plugin as a value. -/
def pluginJson (x : Plugin) : Json :=
  .object ([("callee", .string x.callee), ("class_name", .string x.className),
    ("module", .string x.moduleName)] ++
      match x.fallback with
      | some c => [("fallback_comment", .string c)]
      | none => [])

/-- The document of a profile. -/
def toJson (p : Profile) : Json :=
  .object ([(Field.name.text, .string p.name), (Field.description.text, .string p.description),
      (Field.executor.text, .string p.executor)] ++
    optional .legacyKey (p.legacyKey.map .string) ++
    [(Field.implied.text, stringsJson p.implied),
     (Field.deprecated.text, .object (p.deprecated.map fun d => (d.1, .string d.2)))] ++
    optional .pathKeys (p.pathKeys.map stringsJson) ++
    [(Field.plugins.text, .array (p.plugins.map pluginJson))] ++
    optional .header (p.header.map .string) ++
    [(Field.archiveSuffix.text, .string p.archiveSuffix)])

end Profile

end Retarget
