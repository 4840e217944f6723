import ModuleBundler.Assets
import ModuleBundler.Proofs.Files.Plain
import ModuleBundler.Proofs.Files.Writes
import ModuleBundler.Proofs.Work

namespace ModuleBundler.Assets

variable {o : Options} {assets : Assets} {files mid now : Files} {file : SourceFile}
  {front rest : List SourceFile} {text : String}
  {result : Except Failure Nat}

theorem read_cons_ends {extensions : List String} {content : String} {loaded : Except Failure Assets}
    (isText : files.readText file.location = .ok content)
    (others : (read extensions (assets.put ⟨nameOf extensions file, content⟩) rest).Ends files loaded now) :
    (read extensions assets (file :: rest)).Ends files loaded now := by
  rw [read]
  refine Work.bind_ends_iff.mpr (Or.inl ⟨content, files, Work.readText_ends_ok_iff.mpr ⟨isText, rfl⟩, ?_⟩)
  dsimp only
  split
  · exact Work.noted_bind_ends_iff.mpr others
  · exact others

/-- What embedding makes of the module in a file: a new text, if the module imports assets. -/
def Embeds (o : Options) (assets : Assets) (files : Files) (file : SourceFile) (changed : Option String) : Prop :=
  ∃ source, files.readText file.location = .ok source ∧ (embed o assets file.relativePath source).result = .ok changed

theorem Embeds.unique {changed other : Option String} (first : Embeds o assets files file changed)
    (second : Embeds o assets files file other) : changed = other := by
  obtain ⟨source, reads, made⟩ := first
  obtain ⟨source', reads', made'⟩ := second
  cases reads.symm.trans reads'
  exact Except.ok.inj (made.symm.trans made')

/-- Whether some files hold what embedding makes of them, if it makes something of them, and all else is as before. -/
structure Rewrites (o : Options) (assets : Assets) (files : Files) (modules : List SourceFile) (now : Files) :
    Prop where
  home : now.home = files.home
  changed : ∀ file ∈ modules, ∀ text, Embeds o assets files file (some text) →
    now.content? (files.placeOf file.location) = some (.file text.toUTF8)
  kept : ∀ place, (∀ file ∈ modules, ∀ text, Embeds o assets files file (some text) →
    files.placeOf file.location ≠ place) →
    now.content? place = files.content? place

theorem rewrites_nil (o : Options) (assets : Assets) (files : Files) : Rewrites o assets files [] files :=
  ⟨rfl, nofun, fun _ _ => rfl⟩

theorem Embeds.content? {changed : Option String} (noLinks : files.NoLinks)
    (embeds : Embeds o assets files file changed) :
    ∃ bytes, files.content? (files.placeOf file.location) = some (.file bytes) := by
  obtain ⟨source, reads, _⟩ := embeds
  exact ⟨_, ((Files.look_iff_leads noLinks).mp (Files.readText_eq_ok_iff.mp reads)).2.2⟩

theorem Rewrites.sameOutline (rewrites : Rewrites o assets files front now) (noLinks : files.NoLinks) :
    Files.SameOutline now files where
  home := rewrites.home
  outline place := by
    by_cases changed : ∃ file ∈ front, ∃ text, Embeds o assets files file (some text) ∧
      files.placeOf file.location = place
    · obtain ⟨file, member, text, embeds, rfl⟩ := changed
      obtain ⟨bytes, before⟩ := embeds.content? noLinks
      rw [rewrites.changed file member text embeds, before]
      rfl
    · push Not at changed
      rw [rewrites.kept place changed]

/-- What embedding makes of a file does not depend on what it has made of others. -/
theorem Rewrites.embeds_iff {changed : Option String} (rewrites : Rewrites o assets files front mid)
    (noLinks : files.NoLinks)
    (away : ∀ other ∈ front, files.placeOf other.location ≠ files.placeOf file.location) :
    Embeds o assets mid file changed ↔ Embeds o assets files file changed := by
  have here : mid.content? (files.placeOf file.location) = files.content? (files.placeOf file.location) :=
    rewrites.kept _ fun other member _ _ => away other member
  have reads_iff (source : String) : mid.readText file.location = .ok source ↔
      files.readText file.location = .ok source := by
    rw [Files.readText_eq_ok_iff, Files.readText_eq_ok_iff]
    exact (rewrites.sameOutline noLinks).look_iff noLinks here
  simp only [Embeds, reads_iff]

/-- A module of which embedding makes nothing is as good as done. -/
theorem Rewrites.append_kept (rewrites : Rewrites o assets files front mid) (none : Embeds o assets files file none) :
    Rewrites o assets files (front ++ [file]) mid where
  home := rewrites.home
  changed other member text embeds := by
    rcases List.mem_append.mp member with before | last
    · exact rewrites.changed other before text embeds
    · cases List.mem_singleton.mp last
      cases none.unique embeds
  kept place away := rewrites.kept place fun other member => away other (List.mem_append_left _ member)

/-- A module of which embedding makes something is done when that is written. -/
theorem Rewrites.append_changed (rewrites : Rewrites o assets files front mid) (noLinks : files.NoLinks)
    (away : ∀ other ∈ front, files.placeOf other.location ≠ files.placeOf file.location)
    (embeds : Embeds o assets files file (some text)) (written : mid.write file.location text.toUTF8 = .ok now) :
    Rewrites o assets files (front ++ [file]) now := by
  obtain ⟨bytes, stands⟩ := embeds.content? noLinks
  obtain ⟨name, above, place_eq⟩ : ∃ name above, files.placeOf file.location = name :: above := by
    refine List.exists_cons_of_ne_nil fun root => ?_
    rw [root] at stands
    cases stands
  obtain ⟨source, reads, _⟩ := (rewrites.embeds_iff noLinks away).mpr embeds
  obtain ⟨place, left, reached, _⟩ := Files.look_eq_ok_iff.mp (Files.readText_eq_ok_iff.mp reads)
  have put := Files.write_of_look reached written
  cases Files.reach_eq_placeOf noLinks ((rewrites.sameOutline noLinks).reach_iff.mp reached)
  rw [place_eq] at put away
  subst put
  refine ⟨rewrites.home, fun other member text' embeds' => ?_, fun place away' => ?_⟩
  · rw [Files.content?_put]
    rcases List.mem_append.mp member with before | last
    · rw [if_neg (away other before)]
      exact rewrites.changed other before text' embeds'
    · cases List.mem_singleton.mp last
      cases embeds.unique embeds'
      rw [if_pos place_eq]
  · rw [Files.content?_put, if_neg]
    · exact rewrites.kept place fun other member => away' other (List.mem_append_left _ member)
    · rintro rfl
      exact away' file (List.mem_append_right _ (List.mem_singleton_self file)) text embeds place_eq

theorem embedIn_cons_ends (ends : (embedIn o assets (file :: rest)).Ends mid result now) :
    (now = mid ∧ ∃ failure, result = .error failure) ∨
      (Embeds o assets mid file none ∧ (embedIn o assets rest).Ends mid result now) ∨
      ∃ text written others, Embeds o assets mid file (some text) ∧
        mid.write file.location text.toUTF8 = .ok written ∧
        (embedIn o assets rest).Ends written others now ∧ result = others.map (· + 1) := by
  rw [embedIn] at ends
  rcases Work.bind_ends_iff.mp ends with ⟨source, middle, reads, onward⟩ | ⟨failure, reads, rfl⟩
  · obtain ⟨isText, rfl⟩ := Work.readText_ends_ok_iff.mp reads
    rcases Work.bind_ends_iff.mp onward with ⟨changed, middle', made, last⟩ | ⟨failure, made, rfl⟩
    · obtain ⟨isMade, rfl⟩ := Work.lift_ends_iff.mp made
      cases changed with
      | none => exact Or.inr (Or.inl ⟨⟨source, isText, isMade.symm⟩, last⟩)
      | some text =>
        rcases Work.bind_ends_iff.mp last with ⟨_, written, writes, counted⟩ | ⟨failure, writes, rfl⟩
        · obtain ⟨others, after, rfl⟩ := Work.bind_pure_ends_iff.mp counted
          exact Or.inr (Or.inr ⟨text, written, others, ⟨source, isText, isMade.symm⟩,
            Work.writeText_ends_ok_iff.mp writes, after, rfl⟩)
        · exact Or.inl ⟨(Work.writeText_ends_error writes).1, failure, rfl⟩
    · exact Or.inl ⟨(Work.lift_ends_iff.mp made).2, failure, rfl⟩
  · exact Or.inl ⟨Work.onlyReads_readText.files_eq reads, failure, rfl⟩

theorem embedIn_cons_kept (none : Embeds o assets files file none)
    (others : (embedIn o assets rest).Ends files result now) :
    (embedIn o assets (file :: rest)).Ends files result now := by
  obtain ⟨source, isText, made⟩ := none
  rw [embedIn]
  refine Work.bind_ends_iff.mpr (Or.inl ⟨source, files, Work.readText_ends_ok_iff.mpr ⟨isText, rfl⟩, ?_⟩)
  exact Work.bind_ends_iff.mpr (Or.inl ⟨none, files, Work.lift_ends_iff.mpr ⟨made.symm, rfl⟩, others⟩)

theorem embedIn_cons_changed (embeds : Embeds o assets files file (some text))
    (written : files.write file.location text.toUTF8 = .ok mid)
    (others : (embedIn o assets rest).Ends mid result now) :
    (embedIn o assets (file :: rest)).Ends files (result.map (· + 1)) now := by
  obtain ⟨source, isText, made⟩ := embeds
  rw [embedIn]
  refine Work.bind_ends_iff.mpr (Or.inl ⟨source, files, Work.readText_ends_ok_iff.mpr ⟨isText, rfl⟩, ?_⟩)
  refine Work.bind_ends_iff.mpr (Or.inl ⟨some text, files, Work.lift_ends_iff.mpr ⟨made.symm, rfl⟩, ?_⟩)
  refine Work.bind_ends_iff.mpr (Or.inl ⟨(), mid, Work.writeText_ends_ok_iff.mpr written, ?_⟩)
  exact Work.bind_pure_ends_iff.mpr ⟨result, others, rfl⟩

/-- Embedding does its work for the first of the files, in their order, and if it does not fail for all of them. -/
theorem rewrites_of_embedIn (noLinks : files.NoLinks)
    (distinct : ((front ++ rest).map fun file => files.placeOf file.location).Nodup)
    (so_far : Rewrites o assets files front mid)
    (ends : (embedIn o assets rest).Ends mid result now) :
    ∃ done, done <+: rest ∧ Rewrites o assets files (front ++ done) now ∧
        (∀ count, result = .ok count → done = rest) := by
  -- on the files that are left, behind any that are done
  induction rest generalizing front mid result with
  | nil =>
    obtain ⟨_, rfl⟩ := Work.pure_ends_iff.mp ends
    exact ⟨[], List.nil_prefix, by rwa [List.append_nil], fun _ _ => rfl⟩
  | cons file rest ih =>
    have away : ∀ other ∈ front, files.placeOf other.location ≠ files.placeOf file.location := by
      intro other member same
      rw [List.map_append, List.nodup_append] at distinct
      exact distinct.2.2 _ (List.mem_map_of_mem member) _ (List.mem_map_of_mem List.mem_cons_self) same
    have distinct' : ((front ++ [file] ++ rest).map fun file => files.placeOf file.location).Nodup := by
      rwa [List.append_assoc, List.singleton_append]
    have onward {others : Except Failure Nat} {mid' : Files} (so_far : Rewrites o assets files (front ++ [file]) mid')
        (ends : (embedIn o assets rest).Ends mid' others now)
        (succeeds : ∀ count, result = .ok count → ∃ count, others = .ok count) :
        ∃ done, done <+: file :: rest ∧ Rewrites o assets files (front ++ done) now ∧
          (∀ count, result = .ok count → done = file :: rest) := by
      obtain ⟨done, isPrefix, rewrites, all⟩ := ih distinct' so_far ends
      refine ⟨file :: done, (List.prefix_cons_inj file).mpr isPrefix, ?_, fun count ok => ?_⟩
      · rwa [List.append_assoc, List.singleton_append] at rewrites
      · obtain ⟨count', ok'⟩ := succeeds count ok
        rw [all count' ok']
    rcases embedIn_cons_ends ends with ⟨rfl, failure, rfl⟩ | ⟨none, others⟩ |
      ⟨text, written, counted, embeds, isWritten, others, rfl⟩
    · exact ⟨[], List.nil_prefix, by rwa [List.append_nil], fun _ no => by cases no⟩
    · exact onward (so_far.append_kept ((so_far.embeds_iff noLinks away).mp none)) others fun count ok => ⟨count, ok⟩
    · have embeds := (so_far.embeds_iff noLinks away).mp embeds
      refine onward (so_far.append_changed noLinks away embeds isWritten) others fun count ok => ?_
      cases counted with
      | ok count => exact ⟨count, rfl⟩
      | error => cases ok

end ModuleBundler.Assets
