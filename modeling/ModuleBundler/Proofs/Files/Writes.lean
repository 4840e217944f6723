import ModuleBundler.Proofs.Files.Walks

namespace ModuleBundler.Files

variable {files written : Files} {links left : Nat} {place target : Location} {path : String} {steps : List Path.Step}
  {slash : Bool} {bytes old : ByteArray}

/-- Whether nothing but a file stands at a place. -/
def IsFree (files : Files) (place : Location) : Prop :=
    ∀ content, files.content? place = some content → ∃ bytes, content = .file bytes

theorem isWithin_put (name : String) (above : Location) (bytes : ByteArray) (free : files.IsFree (name :: above)) :
    IsWithin files (files.put (name :: above) (.file bytes)) where
  home := rfl
  content place content here := by
    rw [content?_put]
    split
    · next same =>
      subst same
      obtain ⟨old, rfl⟩ := free content here
      exact ⟨_, rfl, rfl⟩
    · exact ⟨content, here, rfl⟩

/-- What is written by a path stands where the path leads then. -/
theorem writePlace_spec (found : files.writePlace links place steps slash = .ok target) :
    slash = false ∧ ∃ name above, target = name :: above ∧ files.IsFree target ∧
      ∀ bytes, ∃ left, (files.put target (.file bytes)).Arrives links place steps (target, left) := by
  fun_induction writePlace files links place steps slash with
  | case1 | case2 | case3 | case4 | case5 | case6 | case7 | case10 => cases found
  -- the last name is that of a link, and the write goes on along its target
  | case8 links place steps above here text last short link left walked next _ ih =>
    obtain ⟨noSlash, name, inner, rfl, free, arrives⟩ := ih found
    refine ⟨rfl, name, inner, rfl, free, fun bytes => ?_⟩
    have within := isWithin_put name inner bytes free
    obtain ⟨left', along⟩ := arrives bytes
    refine ⟨left', ?_⟩
    rw [← List.dropLast_append_getLast? _ last]
    refine ((walk_eq_ok_iff.mp walked).mono within).append ?_
    refine .follows (within.content_eq here nofun) (Nat.le_of_not_lt short) (within.content_eq next nofun) ?_
    rw [stepsAlong, noSlash, List.append_nil]
    exact along
  | case9 links place steps above left walked here text last short noDirectory _ noLink noLink' =>
    obtain rfl := Except.ok.inj found
    have free : files.IsFree (text :: above) := by
      intro content stands
      cases content with
      | file bytes => exact ⟨bytes, rfl⟩
      | directory => exact absurd stands noDirectory
      | link target =>
        cases left with
        | zero => exact absurd HEq.rfl (noLink target walked stands rfl)
        | succ left => exact absurd HEq.rfl (noLink' target left walked stands rfl)
    refine ⟨rfl, text, above, rfl, free, fun bytes => ⟨left, ?_⟩⟩
    have within := isWithin_put text above bytes free
    rw [← List.dropLast_append_getLast? _ last]
    have stands : (files.put (text :: above) (.file bytes)).content? (text :: above) = some (.file bytes) := by
      rw [content?_put, if_pos rfl]
    refine ((walk_eq_ok_iff.mp walked).mono within).append ?_
    exact .enters (within.content_eq here nofun) (Nat.le_of_not_lt short) stands (fun _ link => by cases link) .stays

theorem write_spec (done : files.write path bytes = .ok written) :
    ∃ name above left, written = files.put (name :: above) (.file bytes) ∧ files.IsFree (name :: above) ∧
      written.reach path = .ok (name :: above, left) := by
  unfold write at done
  split at done
  · cases done
  · next fine =>
    cases found : files.writePlace mostLinks files.home (Path.allSteps path) (Path.endsInSlash path) with
    | error =>
      rw [found] at done
      cases done
    | ok target =>
      rw [found] at done
      cases done
      obtain ⟨noSlash, name, above, rfl, free, arrives⟩ := writePlace_spec found
      obtain ⟨left, along⟩ := arrives bytes
      refine ⟨name, above, left, rfl, free, reach_eq_ok_iff.mpr ⟨fine, ?_⟩⟩
      rw [stepsAlong, noSlash]
      exact along

/-- What has been written is read. -/
theorem look_of_write (done : files.write path bytes = .ok written) : written.look path = .ok (.file bytes) := by
  obtain ⟨name, above, left, rfl, _, reached⟩ := write_spec done
  refine look_eq_ok_iff.mpr ⟨_, _, reached, ?_⟩
  rw [content?_put, if_pos rfl]

/-- A file that a path leads to is the one that is written by the path. -/
theorem write_of_look (reached : files.reach path = .ok (place, left)) (done : files.write path bytes = .ok written) :
    written = files.put place (.file bytes) := by
  obtain ⟨name, above, left', rfl, free, reached'⟩ := write_spec done
  have again := (isWithin_put name above bytes free).reach reached
  rw [reached'] at again
  cases again
  rfl

theorem fromUTF8?_eq_some_iff {bytes : ByteArray} {text : String} :
    String.fromUTF8? bytes = some text ↔ bytes = text.toUTF8 := by
  unfold String.fromUTF8?
  constructor
  · intro decoded
    split at decoded
    · cases decoded
      rfl
    · cases decoded
  · rintro rfl
    exact dif_pos text.isValidUTF8

/-- A path leads to a text exactly if it leads to a file with the bytes of the text. -/
theorem readText_eq_ok_iff {text : String} : files.readText path = .ok text ↔
    files.look path = .ok (.file text.toUTF8) := by
  unfold readText
  split
  · next cause failed => simp [failed]
  · next bytes found =>
    rw [found, Except.ok.injEq, Content.file.injEq, ← fromUTF8?_eq_some_iff]
    cases String.fromUTF8? bytes with
    | none => simp
    | some text => simp
  · next content other found =>
    rw [found]
    constructor
    · intro no
      cases no
    · intro same
      cases same
      exact absurd rfl (other _)

end ModuleBundler.Files
