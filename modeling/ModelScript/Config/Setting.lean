import ModelScript.Config.Document
import ModelScript.Context.Projection
import ModelScript.Files.Tree

/-!
# Build settings

One pass from sources to generated files: where the sources, the templates and the generated files
are, how the latter's names end, and which separators contexts carry.
-/

namespace ModelScript

def sourceEnding : String := ".zolang"

/-- One pass of a build. -/
structure BuildSetting where
  sourcePath : Path
  templatePath : Path
  buildPath : Path
  extension : String
  separators : Separators
  deriving DecidableEq, Repr

namespace BuildSetting

/-- The ending of the names of generated files: one dot and the extension without its dots. -/
def suffix (setting : BuildSetting) : String :=
  String.ofList ('.' :: setting.extension.toList.dropWhile (· = '.'))

/-- Where the generated file for a source goes: to the same place below the build path that the
source has below the source path, or to the build path itself if the source is not below it. -/
def outputPath (setting : BuildSetting) (source : Path) : Except PathError Path := do
  let place := (source.relativeTo? setting.sourcePath).getD (.ofString source.name)
  return setting.buildPath.join (← place.withSuffix setting.suffix)

/-- The sources below the source path, ordered by the parts of their paths. -/
def sourceFiles (setting : BuildSetting) (files : FileTree) : List Path :=
  files.entriesBelow setting.sourcePath sourceEnding

/-- The sources with their texts, if all of them can be read. -/
def readSources (setting : BuildSetting) (files : FileTree) :
    Except ReadError (List (String × List Char)) :=
  (setting.sourceFiles files).mapM fun p => do
    return (p.toString, ← files.readText p p.toString)

/-- A setting whose paths are seen from a directory. -/
def within (root : Path) (setting : BuildSetting) : BuildSetting :=
  { setting with
    sourcePath := root.join setting.sourcePath
    templatePath := root.join setting.templatePath
    buildPath := root.join setting.buildPath }

end BuildSetting

/-- What a configuration has to look like: the settings that a document lists, if it is one. -/
class ConfigSchema where
  settings? : Document → Option (List BuildSetting)

end ModelScript
