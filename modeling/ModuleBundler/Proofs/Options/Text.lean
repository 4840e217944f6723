import Mathlib.Data.List.Nodup
import ModuleBundler.Options.Json
import ModuleBundler.Proofs.Json.Needed

namespace ModuleBundler

open Json (AreBlank Holds IsFormed TextAs IsMember IsObject byte bytesOf)
open Json.Reader

namespace Options

/-- The setting that has some name. -/
def setting (o : Options) : Setting.Name → Setting
  | .root => .root o.root
  | .srcDir => .srcDir o.srcDir
  | .outDir => .outDir o.outDir
  | .entry => .entry o.entry
  | .output => .output o.output
  | .moduleExtensions => .moduleExtensions o.moduleExtensions
  | .assetExtensions => .assetExtensions o.assetExtensions
  | .assetSuffix => .assetSuffix o.assetSuffix
  | .exclude => .exclude o.exclude
  | .cleanDirs => .cleanDirs o.cleanDirs

variable {o o' : Options} {known : Setting.Name} {names : List Setting.Name} {name : String} {v : List Char}

@[simp]
theorem name_setting (o : Options) (known : Setting.Name) : (o.setting known).name = known := by
  cases known <;> rfl

theorem map_name_setting (o : Options) (names : List Setting.Name) :
    (names.map o.setting).map Setting.name = names := by
  rw [List.map_map, show Setting.name ∘ o.setting = id from funext (name_setting o), List.map_id]

theorem settings_eq (o : Options) : o.settings = Setting.Name.all.map o.setting := rfl

theorem eq_of_setting (same : ∀ known, o.setting known = o'.setting known) : o = o' := by
  rw [← ofSettings_settings o, ← ofSettings_settings o', settings_eq, settings_eq, funext same]

theorem setting_set (o : Options) (setting : Setting) (known : Setting.Name) :
    (o.set setting).setting known = if setting.name = known then setting else o.setting known := by
  cases setting <;> cases known <;> rfl

theorem setting_foldl (names : List Setting.Name) : ∀ base : Options,
    ((names.map o.setting).foldl set base).setting known =
        if known ∈ names then o.setting known else base.setting known := by
  induction names with
  | nil => exact fun base => (if_neg List.not_mem_nil).symm
  | cons name names ih =>
    intro base
    rw [List.map_cons, List.foldl_cons, ih, setting_set, name_setting]
    by_cases later : known ∈ names
    · rw [if_pos later, if_pos (List.mem_cons_of_mem _ later)]
    · by_cases now : name = known
      · rw [if_neg later, if_pos now, now, if_pos List.mem_cons_self]
      · rw [if_neg later, if_neg now, if_neg]
        rintro (_ | ⟨_, member⟩)
        · exact now rfl
        · exact later member

/-- Settings that are left out are not missed if they have their defaults. -/
theorem ofSettings_map (defaults : ∀ known, known ∉ names → o.setting known = ({} : Options).setting known) :
    ofSettings (names.map o.setting) = o := by
  refine eq_of_setting fun known => ?_
  rw [ofSettings, setting_foldl]
  split
  · rfl
  · exact (defaults known ‹_›).symm

/-- Whether a member of an object holds the value of the setting with its name, or sets nothing and holds a value
of any form. -/
def Admits (o : Options) (member : String × List Char) : Prop :=
  match Setting.Name.ofText? member.1 with
  | some known => Holds (o.setting known).toJson member.2
  | none => IsFormed .value member.2

theorem admits_iff_holds (isName : Setting.Name.ofText? name = some known) :
    o.Admits (name, v) ↔ Holds (o.setting known).toJson v := by
  rw [Admits, isName]

theorem admits_iff_isFormed (isName : Setting.Name.ofText? name = none) : o.Admits (name, v) ↔ IsFormed .value v := by
  rw [Admits, isName]

/-- The names of the settings that members of an object set. -/
def namesSet (members : List (String × List Char)) : List Setting.Name :=
  members.filterMap fun member => Setting.Name.ofText? member.1

theorem namesSet_cons (member : String × List Char) (members : List (String × List Char)) :
    namesSet (member :: members) = (Setting.Name.ofText? member.1).toList ++ namesSet members := by
  rw [namesSet, List.filterMap_cons]
  cases Setting.Name.ofText? member.1 <;> rfl

/-- Whether members of an object say what the options are. -/
structure IsDescribedBy (o : Options) (members : List (String × List Char)) : Prop where
  admitted : ∀ member ∈ members, o.Admits member
  once : (namesSet members).Nodup
  defaults : ∀ known, known ∉ namesSet members → o.setting known = ({} : Options).setting known

end Options

namespace Setting

variable {b v : List Char}

/-- However the value of a setting is written, the setting is read from it. -/
theorem reads_setting (setting : Setting) (blank : AreBlank b) (holds : Holds setting.toJson v) :
    Reads (read fromText setting.name) (b ++ v) setting := by
  cases setting with
  | root path => exact (reads_text_of_holds blank holds).map root
  | srcDir path => exact (reads_text_of_holds blank holds).map srcDir
  | outDir path => exact (reads_text_of_holds blank holds).map outDir
  | entry text => exact (reads_text_of_holds blank holds).map entry
  | output path =>
    cases path with
    | none => exact (reads_nothing_of_holds blank holds).map output
    | some path => exact (reads_optionalText_of_holds blank holds).map output
  | moduleExtensions texts => exact (reads_texts_of_holds blank holds).map moduleExtensions
  | assetExtensions texts => exact (reads_texts_of_holds blank holds).map assetExtensions
  | assetSuffix text => exact (reads_text_of_holds blank holds).map assetSuffix
  | exclude texts => exact (reads_texts_of_holds blank holds).map exclude
  | cleanDirs texts => exact (reads_texts_of_holds blank holds).map cleanDirs

open Json (Reader)
open Options (namesSet)

/-- What follows the name of a member: the value of the setting with this name, or some value that sets nothing. -/
def memberAfterName (found : List Setting) (name : String) : Reader (Option (List Setting × Bool)) := do
  match Name.ofText? name with
  | some known =>
    if found.any fun setting => setting.name = known then throw .unfit
    if (← takePart) ≠ byte ':' then throw .malformed
    return some ((← read fromText known) :: found, false)
  | none =>
    if (← takePart) ≠ byte ':' then throw .malformed
    skip
    return some (found, false)

/-- One round of `readMembers`: the settings that have been read, the last one first, and whether
no member has come yet. -/
def memberStep : List Setting × Bool → Reader (Option (List Setting × Bool)) := fun (found, isFirst) => do
  let b ← peekPart
  if b = byte '\x7d' then return none
  if !isFirst then
    if b ≠ byte ',' then throw .malformed
    let _ ← take .cutOff
  if (← takePart) ≠ byte '"' then throw .malformed
  memberAfterName found (← textAfterQuote)

theorem readMembers_eq : readMembers = (do
    let found ← iterate (([] : List Setting), true) memberStep
    let _ ← takePart
    return found.1.reverse) := rfl

variable {found : List Setting} {isFirst : Bool} {lead k b' b'' : List Char} {name : String} {o : Options}
  {member : String × List Char} {members : List (String × List Char)} {w : List Char}

/-- Before a member, blanks are moved over, and the comma if it is not the first. -/
theorem run_memberStep (leads : Leads isFirst lead) (blank : AreBlank b) (rest : List UInt8) :
    (memberStep (found, isFirst)).run (bytesOf (lead ++ b) ++ byte '"' :: rest) =
      (textAfterQuote >>= memberAfterName found).run rest := by
  cases leads with
  | first =>
    rw [List.nil_append, memberStep, run_bind_of (run_peekPart blank (by decide) _)]
    rfl
  | @comma b' blank' =>
    have step : (memberStep (found, false)).run (bytesOf b' ++ byte ',' :: (bytesOf b ++ byte '"' :: rest)) =
        (takePart >>= fun q => if q ≠ byte '"' then throw .malformed
          else textAfterQuote >>= memberAfterName found : Reader _).run
          (bytesOf b ++ byte '"' :: rest) := by
      rw [memberStep, run_bind_of (run_peekPart blank' (by decide) _)]
      rfl
    rw [List.append_assoc, Json.bytesOf_append, List.append_assoc, List.singleton_append,
      Json.bytesOf_ascii (by decide), List.cons_append, step, run_bind_of (run_takePart blank (by decide) _)]
    rfl

theorem run_memberAfterName_known {known : Name} {setting : Setting} (isName : Name.ofText? name = some known)
    (new : known ∉ found.map Setting.name) (between : AreBlank b) (reads : Reads (read fromText known) v setting)
    (rest : List UInt8) :
    (memberAfterName found name).run (bytesOf (b ++ ':' :: v) ++ rest) =
        .ok (some (setting :: found, false), rest) := by
  have once : ¬(found.any fun setting => setting.name = known) = true := by
    rw [List.any_eq_true]
    rintro ⟨setting, member, same⟩
    exact new (List.mem_map.mpr ⟨setting, member, of_decide_eq_true same⟩)
  have step : memberAfterName found name = takePart >>= fun colon => if colon ≠ byte ':' then throw .malformed
      else read fromText known >>= fun setting => return some (setting :: found, false) := by
    rw [memberAfterName, isName]
    simp only [if_neg once]
    rfl
  rw [Json.bytesOf_append, Json.bytesOf_ascii (by decide), List.append_assoc, List.cons_append, step,
    run_bind_of (run_takePart between (by decide) _), if_neg (by simp), run_bind_of (reads rest)]
  rfl

theorem run_memberAfterName_unknown (isName : Name.ofText? name = none) (between : AreBlank b)
    (between' : AreBlank b')
    (isFormed : IsFormed .value v) {rest : List UInt8} (ends : EndsNumber rest) :
    (memberAfterName found name).run (bytesOf (b ++ ':' :: (b' ++ v)) ++ rest) = .ok (some (found, false), rest) := by
  have step : memberAfterName found name = takePart >>= fun colon => if colon ≠ byte ':' then throw .malformed
      else skip >>= fun _ => return some (found, false) := by
    rw [memberAfterName, isName]
    rfl
  rw [Json.bytesOf_append, Json.bytesOf_ascii (by decide), List.append_assoc, List.cons_append, step,
    run_bind_of (run_takePart between (by decide) _), if_neg (by simp), run_bind_of (run_skip isFormed between' ends)]
  rfl

/-- A member is read in one round. -/
theorem goes_member (admits : o.Admits member) (written : IsMember member w) (leads : Leads isFirst lead)
    (new : ∀ known ∈ Name.ofText? member.1, known ∉ found.map Setting.name) :
    Goes memberStep EndsNumber (bytesOf (lead ++ w)) (found, isFirst)
      ((Name.ofText? member.1).toList.map o.setting ++ found, false) := by
  obtain @⟨name, b, k, b', b'', v, before, key, between, between'⟩ := written
  have bytes : bytesOf (lead ++ (b ++ '"' :: (k ++ '"' :: (b' ++ ':' :: (b'' ++ v))))) =
      bytesOf (lead ++ b) ++ byte '"' :: (bytesOf k ++ byte '"' :: bytesOf (b' ++ ':' :: (b'' ++ v))) := by
    rw [← List.append_assoc, Json.bytesOf_append, Json.bytesOf_ascii (by decide), Json.bytesOf_append k,
      Json.bytesOf_ascii (by decide)]
  rw [bytes]
  refine goes_round (List.append_ne_nil_of_right_ne_nil _ (List.cons_ne_nil _ _)) fun rest ends => ?_
  rw [List.append_assoc, List.cons_append, List.append_assoc, List.cons_append, run_memberStep leads before,
    run_bind_of (run_textAfterQuote key _)]
  cases isName : Name.ofText? name with
  | none =>
    exact run_memberAfterName_unknown isName between between' ((Options.admits_iff_isFormed isName).mp admits) ends
  | some known =>
    have reads := reads_setting (o.setting known) between' ((Options.admits_iff_holds isName).mp admits)
    rw [Options.name_setting] at reads
    exact run_memberAfterName_known isName (new known isName) between reads rest

/-- What `readMembers` comes to by reading a member. -/
def afterMember (o : Options) (state : List Setting × Bool) (member : String × List Char) : List Setting × Bool :=
  ((Name.ofText? member.1).toList.map o.setting ++ state.1, false)

theorem foldl_afterMember (o : Options) (members : List (String × List Char)) : ∀ state : List Setting × Bool,
    (members.foldl (afterMember o) state).1 = ((namesSet members).map o.setting).reverse ++ state.1 := by
  induction members with
  | nil => exact fun state => rfl
  | cons member members ih =>
    intro state
    rw [List.foldl_cons, ih, afterMember, Options.namesSet_cons, List.map_append,
      List.reverse_append, List.append_assoc]
    cases Name.ofText? member.1 <;> rfl

/-- Whether members set options as they are, and none that has been set before. -/
structure Fits (o : Options) (state : List Setting × Bool) (members : List (String × List Char)) : Prop where
  admitted : ∀ member ∈ members, o.Admits member
  once : (state.1.map Setting.name ++ namesSet members).Nodup

theorem Fits.isNew {state : List Setting × Bool} (fits : Fits o state (member :: members)) :
    ∀ known ∈ Name.ofText? member.1, known ∉ state.1.map Setting.name := by
  intro known isName before
  have once := fits.once
  rw [Options.namesSet_cons, isName] at once
  exact (List.nodup_append.mp once).2.2 known before known List.mem_cons_self rfl

theorem Fits.behind {state : List Setting × Bool} (fits : Fits o state (member :: members)) :
    Fits o (afterMember o state member) members := by
  refine ⟨fun other later => fits.admitted other (List.mem_cons_of_mem _ later), ?_⟩
  have once := fits.once
  rw [Options.namesSet_cons] at once
  rw [afterMember, List.map_append, Options.map_name_setting, List.append_assoc]
  exact (List.perm_append_comm_assoc _ _ _).nodup_iff.mp once

theorem isLoop_memberStep (o : Options) :
    IsLoop memberStep Prod.snd (afterMember o) (Fits o) IsMember EndsNumber '\x7d' where
  one fits written leads := goes_member (fits.admitted _ List.mem_cons_self) written leads fits.isNew
  others fits := fits.behind
  notFirst _ _ := rfl
  behind blank c isEnd w rest := by
    refine endsNumber_of_blank blank ?_ rest
    simp only [List.mem_cons] at isEnd ⊢
    tauto
  ends state b blank rest := by
    rw [Json.bytesOf_append, List.append_assoc, Json.bytesOf_ascii (by decide), List.cons_append, memberStep,
      run_bind_of (run_peekPart blank (by decide) _)]
    rfl

/-- What stands between the braces of an object is read with the brace at the end. -/
theorem reads_members {state : List Setting × Bool} {read : List Setting} (isRead : state.1 = read.reverse)
    (inside : ∀ rest, (iterate ([], true) memberStep).run (bytesOf (w ++ ['\x7d']) ++ rest) =
      .ok (state, byte '\x7d' :: rest)) :
    Reads readMembers (w ++ ['\x7d']) read := by
  intro rest
  rw [readMembers_eq, run_bind_of (inside rest), isRead, List.reverse_reverse]
  rfl

theorem reads_readAll {read : List Setting} (blank : AreBlank b) (inside : Reads readMembers w read) :
    Reads readAll (b ++ '\x7b' :: w) read := by
  intro rest
  have step (bytes : List UInt8) : (if byte '\x7b' = byte '\x7b' then do
        let _ ← take .cutOff
        readMembers
      else if byte '\x7b' = byte '[' then do
        let _ ← take .cutOff
        readElements
      else refuse : Reader _).run (byte '\x7b' :: bytes) = readMembers.run bytes := rfl
  rw [Json.bytesOf_append, Json.bytesOf_ascii (by decide), List.append_assoc, List.cons_append, readAll,
    run_bind_of (run_peekPart blank (by decide) _), step, inside rest]

/-- The settings that an object sets are read from it in their order. -/
theorem reads_object {object : List Char} (written : IsObject members object) (describes : o.IsDescribedBy members) :
    ∃ front behind, object = front ++ behind ∧ AreBlank behind ∧
        Reads readAll front ((namesSet members).map o.setting) := by
  cases written with
  | @empty b i b' before inside behind =>
    have nothing : Reads readMembers (i ++ ['\x7d']) [] :=
      reads_members rfl ((isLoop_memberStep o).run_iterate_nothing inside ([], true))
    refine ⟨b ++ '\x7b' :: (i ++ ['\x7d']), b', ?_, behind, reads_readAll before nothing⟩
    simp only [List.append_assoc, List.cons_append, List.nil_append]
  | @some _ b w b' before inside behind =>
    have fits : Fits o ([], true) members := ⟨describes.admitted, describes.once⟩
    have members := reads_members (by rw [foldl_afterMember, List.append_nil])
      ((isLoop_memberStep o).run_iterate inside fits rfl)
    refine ⟨b ++ '\x7b' :: (w ++ ['\x7d']), b', ?_, behind, reads_readAll before members⟩
    simp only [List.append_assoc, List.cons_append, List.nil_append]

end Setting

namespace Options

variable {o : Options} {members : List (String × List Char)}

/-- Options are read from an object that describes them. -/
theorem ofText_of_isObject {text : String} (written : IsObject members text.toList)
    (describes : o.IsDescribedBy members) :
    ofText text.toUTF8.data.toList = .ok o := by
  obtain ⟨front, behind, split, blank, reads⟩ := Setting.reads_object written describes
  have read : Setting.readAll.run (bytesOf text.toList) = .ok ((namesSet members).map o.setting, bytesOf behind) := by
    rw [split, Json.bytesOf_append]
    exact reads (bytesOf behind)
  have nothingElse : ((bytesOf behind).dropWhile Json.isBlank).isEmpty = true := by
    rw [List.isEmpty_iff, List.dropWhile_eq_nil_iff]
    exact blank.isBlank
  rw [ofText, Json.toList_toUTF8, Json.Reader.whole, read]
  simp only [bind, Except.bind]
  rw [if_pos nothingElse]
  exact congrArg Except.ok (ofSettings_map describes.defaults)

end Options

namespace Setting

theorem Name.ofText?_text (known : Name) : Name.ofText? known.text = some known := by
  cases known <;> decide

/-- The value of a setting as compact JSON. -/
def written : Setting → List Char
  | root s | srcDir s | outDir s | entry s | assetSuffix s => Text.quote s.toList
  | output none => "null".toList
  | output (some s) => Text.quote s.toList
  | moduleExtensions l | assetExtensions l | exclude l | cleanDirs l =>
    '[' :: (Text.joinWith [','] (l.map fun s => Text.quote s.toList) ++ [']'])

theorem holds_quote (s : String) : Holds (.text s) (Text.quote s.toList) := .text (Json.textAs_quoted s.toList)

theorem isElement_quote (s : String) : Json.IsElement s (Text.quote s.toList) :=
  .mk (b := []) Json.areBlank_nil (Json.textAs_quoted s.toList)

theorem holds_texts (texts : List String) : Holds (.list (texts.map .text))
    ('[' :: (Text.joinWith [','] (texts.map fun s => Text.quote s.toList) ++ [']'])) := by
  cases texts with
  | nil => exact .noTexts Json.areBlank_nil
  | cons s ss =>
    have separated := Json.areSeparated_joinWith (f := id) isElement_quote ss s
    rw [List.map_id] at separated
    exact .texts separated

theorem holds_written (setting : Setting) : Holds setting.toJson setting.written := by
  cases setting with
  | root s | srcDir s | outDir s | entry s | assetSuffix s => exact holds_quote s
  | output path =>
    cases path with
    | none => exact .null
    | some s => exact holds_quote s
  | moduleExtensions texts | assetExtensions texts | exclude texts | cleanDirs texts => exact holds_texts texts

/-- A setting as a member of an object. -/
def member (setting : Setting) : String × List Char := (setting.name.text, setting.written)

/-- A setting as a member of a compact object. -/
def writtenMember (setting : Setting) : List Char := Text.quote setting.name.text.toList ++ ':' :: setting.written

theorem isMember_writtenMember (setting : Setting) : IsMember setting.member setting.writtenMember := by
  have written := IsMember.mk (v := setting.written) Json.areBlank_nil
    (Json.textAs_quoted setting.name.text.toList) Json.areBlank_nil
    Json.areBlank_nil
  simpa only [member, writtenMember, Text.quote, List.append_assoc, List.cons_append, List.nil_append] using written

end Setting

namespace Options

/-- Options as a compact object, with the settings in their order. -/
def written (o : Options) : String :=
  String.ofList ('\x7b' :: (Text.joinWith [','] (o.settings.map Setting.writtenMember) ++ ['\x7d']))

theorem isObject_written (o : Options) : IsObject (o.settings.map Setting.member) o.written.toList := by
  rw [written, String.toList_ofList]
  exact .some Json.areBlank_nil (Json.areSeparated_joinWith Setting.isMember_writtenMember _ _) Json.areBlank_nil

theorem namesSet_settings (o : Options) : namesSet (o.settings.map Setting.member) = Setting.Name.all := by
  have names : (fun member => Setting.Name.ofText? member.1) ∘ Setting.member = some ∘ Setting.name :=
    funext fun setting => Setting.Name.ofText?_text setting.name
  rw [namesSet, List.filterMap_map, names, List.filterMap_eq_map, settings_eq, map_name_setting]

theorem isDescribedBy_settings (o : Options) : o.IsDescribedBy (o.settings.map Setting.member) := by
  have all (known : Setting.Name) : known ∈ Setting.Name.all := by
    cases known <;> decide
  constructor
  · intro member isMember
    obtain ⟨setting, isSetting, rfl⟩ := List.mem_map.mp isMember
    rw [settings_eq] at isSetting
    obtain ⟨known, _, rfl⟩ := List.mem_map.mp isSetting
    rw [Setting.member, name_setting]
    exact (admits_iff_holds (Setting.Name.ofText?_text known)).mpr (Setting.holds_written _)
  · rw [namesSet_settings]
    decide
  · intro known missing
    rw [namesSet_settings] at missing
    exact absurd (all known) missing

/-- Options survive JSON. They are read from each object that holds the values of their settings, in whatever
order, spelling and layout, among whatever members that set nothing, and with any settings left out that have
their defaults. What is written for them is such an object. -/
theorem read_back (o : Options) :
    (∀ (members : List (String × List Char)) (text : String), IsObject members text.toList → o.IsDescribedBy members →
      ofText text.toUTF8.data.toList = .ok o) ∧
      ofText o.written.toUTF8.data.toList = .ok o :=
  ⟨fun _ _ written describes => ofText_of_isObject written describes,
    ofText_of_isObject (isObject_written o) (isDescribedBy_settings o)⟩

/-- A list with an object in it that sets nothing, a setting that has its default, and one that
is written with an escape. -/
theorem read_back_among_others :
    ofText "\x7b\"x\":[1,\x7b\x7d], \"output\" : null,\"entry\":\"a\\u0062\"\x7d".toUTF8.data.toList =
        .ok { entry := "ab" } := by
  have blank : AreBlank [' '] := by simp [AreBlank]
  have keys : TextAs ['x'] "x".toList ∧ TextAs "output".toList "output".toList ∧
      TextAs "entry".toList "entry".toList :=
    ⟨Json.textAs_quoted ['x'], Json.textAs_quoted "output".toList, Json.textAs_quoted "entry".toList⟩
  have one : Json.IsNumber (([] : List Char) ++ (['1'] ++ (([] : List Char) ++ []))) :=
    .mk (by decide) ⟨by decide, Json.forall_mem (by decide)⟩ (by decide) .none .none
  have list : IsFormed .value "[1,\x7b\x7d]".toList :=
    .list (.nextElement (b := []) Json.areBlank_nil (.number one) Json.areBlank_nil
      (.lastElement (b := []) (v := "\x7b\x7d".toList) Json.areBlank_nil
        (.emptyObject Json.areBlank_nil) Json.areBlank_nil))
  have hex {n : Nat} (small : n < 16) : Json.IsHexDigit (Text.hexDigit n) n := ⟨small, Or.inl rfl⟩
  have text : TextAs "a\\u0062".toList "ab".toList :=
    .cons (w := ['a']) (.plain (by decide) (by decide) (by decide)) (.cons (w := "\\u0062".toList) (c := 'b')
      (.unit (.digits (hex (n := 0) (by decide)) (hex (n := 0) (by decide)) (hex (n := 6) (by decide))
        (hex (n := 2) (by decide)))) .nil)
  have unknown : IsMember ("x", "[1,\x7b\x7d]".toList) "\"x\":[1,\x7b\x7d]".toList :=
    .mk (b := []) Json.areBlank_nil keys.1 Json.areBlank_nil Json.areBlank_nil
  have output : IsMember ("output", "null".toList) " \"output\" : null".toList :=
    .mk (b := [' ']) blank keys.2.1 blank blank
  have entry : IsMember ("entry", "\"a\\u0062\"".toList) "\"entry\":\"a\\u0062\"".toList :=
    .mk (b := []) Json.areBlank_nil keys.2.2 Json.areBlank_nil Json.areBlank_nil
  have written : IsObject [("x", "[1,\x7b\x7d]".toList), ("output", "null".toList), ("entry", "\"a\\u0062\"".toList)]
      "\x7b\"x\":[1,\x7b\x7d], \"output\" : null,\"entry\":\"a\\u0062\"\x7d".toList :=
    .some (b := []) Json.areBlank_nil (.next unknown Json.areBlank_nil
      (.next output Json.areBlank_nil (.last entry Json.areBlank_nil)))
      Json.areBlank_nil
  refine (read_back { entry := "ab" }).1 _ _ written ⟨?_, by decide, ?_⟩
  · simp only [List.forall_mem_cons]
    refine ⟨?_, ?_, ?_, fun _ member => absurd member List.not_mem_nil⟩
    · exact (admits_iff_isFormed (by decide)).mpr list
    · exact (admits_iff_holds (show Setting.Name.ofText? "output" = some .output by decide)).mpr .null
    · exact (admits_iff_holds (show Setting.Name.ofText? "entry" = some .entry by decide)).mpr (.text text)
  · intro known missing
    cases known with
    | entry => exact absurd (by decide) missing
    | _ => rfl

end Options

end ModuleBundler
