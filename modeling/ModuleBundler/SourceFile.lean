import ModuleBundler.Path

namespace ModuleBundler

structure SourceFile where
  /-- The path by which the file was found. -/
  location : String
  /-- The path from the root of the bundle. -/
  relativePath : String
  fileName : String
  /-- The path from the root of the bundle to the directory of the file. -/
  directory : String
  deriving DecidableEq, Repr

namespace SourceFile

/-- The file at a path from the root of the bundle. -/
def ofRelativePath (location relativePath fileName : String) : SourceFile :=
  ⟨location, relativePath, fileName, Path.parent relativePath⟩

/-- The name without its last extension. -/
def stem (file : SourceFile) : String := String.ofList (Text.withoutExtension file.fileName.toList)

end SourceFile

end ModuleBundler
