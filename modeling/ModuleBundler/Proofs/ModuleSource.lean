import ModuleBundler.ModuleSource
import ModuleBundler.Proofs.Work

namespace ModuleBundler

/-- Whether a source can be parsed. -/
def Parses (source : String) : Prop := (Script.Module.parse? source.toList).isSome

instance (source : String) : Decidable (Parses source) := inferInstanceAs (Decidable (_ = true))

/-- The text of a module, if it can be parsed. -/
def plain? (source : String) : Option String :=
    (Script.Module.parse? source.toList).map fun m => String.ofList m.plainText

theorem plain?_isSome_iff {source : String} : (plain? source).isSome ↔ Parses source := by
  rw [plain?, Option.isSome_map, Parses]

theorem result_plainText (name source : String) : (plainText name source).result =
    match plain? source with
    | some text => .ok text
    | none => .error (.unparsable name) := by
  simp only [plainText, parseModule, plain?]
  cases Script.Module.parse? source.toList with
  | none => rfl
  | some m => rfl

theorem result_plainText_ok_iff {name source text : String} :
    (plainText name source).result = .ok text ↔ plain? source = some text := by
  rw [result_plainText]
  cases plain? source <;> simp

end ModuleBundler
