import ScriptTree.Json.Printer

/-!
What the tool says about itself: its version and what it was built with.
-/

namespace ScriptTree

/-- What the tool was built with and for. -/
structure BuildPlatform where
  toolchain : String
  system : String
  architecture : String
deriving Repr

namespace BuildPlatform

def toolVersion : String := "0.1.0"

def buildDate : String := "2026-10-17"

def versionText (p : BuildPlatform) (tool : String) : String :=
  tool ++ " v" ++ toolVersion ++ "\n" ++ "Build Date: " ++ buildDate ++ "\n" ++
    "Go Version: " ++ p.toolchain ++ "\n" ++ "Platform: " ++ p.system ++ "/" ++ p.architecture ++ "\n"

def versionJson (p : BuildPlatform) (tool : String) : Json :=
  .obj [("tool", .str tool),
    ("version_info", .obj [("version", .str toolVersion), ("build_date", .str buildDate),
      ("commit_sha", .str "unknown"), ("go_version", .str p.toolchain), ("platform", .str p.system),
      ("arch", .str p.architecture)])]

/-- The version in the form asked for. -/
def describe (p : BuildPlatform) (tool : String) (json : Bool) : String :=
  if json then (p.versionJson tool).pretty ++ "\n" else p.versionText tool

end BuildPlatform

end ScriptTree
