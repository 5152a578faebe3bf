import Splice.Json.Reader
import Splice.Json.Writer

namespace Splice

structure Config where
  metadataSuffix : Nat
  artifactDir : String
  outputDir : String
  persist : Bool
  deriving DecidableEq

namespace Config

def standard : Config where
  metadataSuffix := 43
  artifactDir := "build/contracts"
  outputDir := "build/preface"
  persist := true

def field (read : Json → Option α) (missing : α) : Option Json → Option α
  | none => some missing
  | some value => read value

def ofJson? (value : Json) : Option Config := do
  match ← value.fields? ["metadata_suffix_len", "artifact_dir", "output_dir", "persist"] with
  | [suffix, artifactDir, outputDir, persist] =>
    return {
      metadataSuffix := ← field Json.size? standard.metadataSuffix suffix
      artifactDir := ← field Json.text? standard.artifactDir artifactDir
      outputDir := ← field Json.text? standard.outputDir outputDir
      persist := ← field Json.bool? standard.persist persist
    }
  | _ => none

def toJson (c : Config) : Json :=
  .ofMembers [
    ("metadata_suffix_len", .ofNat c.metadataSuffix), ("artifact_dir", .ofText c.artifactDir),
    ("output_dir", .ofText c.outputDir), ("persist", .bool c.persist)
  ]

def parse? (text : List Char) : Option Config :=
  (Json.parse? text).bind ofJson?

end Config
end Splice
