import Mathlib.Data.List.Induction
import SlotScheduling.Options
import SlotScheduling.Proofs.Tables

/-!
# What an option string says

A string gives a value to a switch if it names the pass and the switch, and then says nothing more
or gives a value that can be read.  Whatever follows a second colon or a second equals sign is not
looked at.  Of the strings that give a value to a switch the last one counts.
-/

namespace SlotScheduling

variable {separator : Char} {first rest text : List Char}

/-- Nothing is left, or one of the separators comes next. -/
def Ended (separators rest : List Char) : Prop := ∀ c ∈ rest.head?, c ∈ separators

/-- The pieces behind the first one. -/
def laterPieces (separator : Char) : List Char → List (List Char)
  | [] => []
  | _ :: rest => pieces separator rest

theorem ended_nil (separators : List Char) : Ended separators [] := by simp [Ended]

theorem pieces_append (h : separator ∉ first) (hended : Ended [separator] rest) :
    pieces separator (first ++ rest) = first :: laterPieces separator rest := by
  induction first with
  | nil =>
      cases rest with
      | nil => rfl
      | cons c rest =>
          rw [List.nil_append, pieces, if_pos (by simpa [Ended] using hended), laterPieces]
  | cons c first ih =>
      obtain ⟨hc, hfirst⟩ := not_or.mp (List.mem_cons.not.mp h)
      rw [List.cons_append, pieces, if_neg (Ne.symm hc), ih hfirst]

theorem exists_first_piece (separator : Char) (text : List Char) :
    ∃ first rest, text = first ++ rest ∧ separator ∉ first ∧ Ended [separator] rest := by
  by_cases h : separator ∈ text
  · obtain ⟨first, rest, rfl, hfirst⟩ := List.eq_append_cons_of_mem h
    exact ⟨first, separator :: rest, rfl, hfirst, by simp [Ended]⟩
  · exact ⟨text, [], by simp, h, by simp [Ended]⟩

namespace PassOptions

variable {pass : PassOptions} {switch : Switch} {value : Bool}

/-- The text names the pass and the switch, and gives the value: `true` without a word, or one that
is written behind an equals sign. -/
inductive Gives (pass : PassOptions) (switch : Switch) : List Char → Bool → Prop
  | bare {rest : List Char} : Ended [':'] rest →
      Gives pass switch (pass.name.toList ++ ':' :: (switch.name.toList ++ rest)) true
  | written {word rest : List Char} {value : Bool} :
      switch.parse (String.ofList word) = some value →
      ':' ∉ word → '=' ∉ word → Ended [':', '='] rest →
      Gives pass switch
        (pass.name.toList ++ ':' :: (switch.name.toList ++ '=' :: (word ++ rest))) value

/-- The names have no separators in them, and no two switches share theirs. -/
structure Readable (pass : PassOptions) : Prop where
  name : ':' ∉ pass.name.toList
  switches : ∀ switch ∈ pass.switches, ':' ∉ switch.name.toList ∧ '=' ∉ switch.name.toList
  nodup : (pass.switches.map Switch.name).Nodup

/-- What is read behind the name of the pass and the colon. -/
def readSetting (pass : PassOptions) (setting : List Char) : Reading :=
  match pieces '=' setting with
  | [] => .silent
  | name :: values =>
    match pass.switches.find? (·.name = String.ofList name) with
    | none => .unknown (String.ofList name)
    | some switch =>
      match values with
      | [] => .set switch.name true
      | value :: _ =>
        match switch.parse (String.ofList value) with
        | none => .invalid switch.name (String.ofList value)
        | some value => .set switch.name value

theorem read_eq_readSetting {setting : List Char} {string : String}
    (htext : string.toList = pass.name.toList ++ ':' :: (setting ++ rest))
    (hname : ':' ∉ pass.name.toList) (hsetting : ':' ∉ setting) (hended : Ended [':'] rest) :
    pass.read string = pass.readSetting setting := by
  rw [read, htext, pieces_append hname (by simp [Ended]), laterPieces,
    pieces_append hsetting hended]
  simp only [String.ofList_toList, if_true]
  rfl

/-- A string that does not name the pass in front of a colon says nothing to it. -/
theorem exists_setting_of_read {string : String} (h : pass.read string ≠ .silent) :
    ∃ setting rest, string.toList = pass.name.toList ++ ':' :: (setting ++ rest) ∧
      ':' ∉ pass.name.toList ∧ ':' ∉ setting ∧ Ended [':'] rest := by
  obtain ⟨owner, tail, htext, howner, htail⟩ := exists_first_piece ':' string.toList
  rw [read, htext, pieces_append howner htail] at h
  cases tail with
  | nil => exact absurd rfl h
  | cons c tail =>
      obtain rfl : c = ':' := by simpa [Ended] using htail
      obtain ⟨setting, rest, rfl, hsetting, hrest⟩ := exists_first_piece ':' tail
      simp only [laterPieces, pieces_append hsetting hrest] at h
      split at h
      next hname =>
        obtain rfl : owner = pass.name.toList := by rw [← hname, String.toList_ofList]
        exact ⟨setting, rest, htext, howner, hsetting, hrest⟩
      next => exact absurd rfl h

theorem find?_name (hread : pass.Readable) (hmem : switch ∈ pass.switches) :
    pass.switches.find? (·.name = switch.name) = some switch := by
  have hnodup := hread.nodup
  generalize pass.switches = switches at hmem hnodup
  induction switches with
  | nil => exact absurd hmem List.not_mem_nil
  | cons first others ih =>
      rw [List.map_cons, List.nodup_cons] at hnodup
      rcases List.mem_cons.mp hmem with rfl | hmem
      · simp
      · have hne : first.name ≠ switch.name :=
          fun heq => hnodup.1 (heq ▸ List.mem_map_of_mem hmem)
        rw [List.find?_cons_of_neg (by simpa using hne), ih hmem hnodup.2]

theorem read_of_gives {string : String} (hread : pass.Readable) (hmem : switch ∈ pass.switches)
    (h : pass.Gives switch string.toList value) : pass.read string = .set switch.name value := by
  obtain ⟨hcolon, hequals⟩ := hread.switches switch hmem
  generalize htext : string.toList = text at h
  cases h with
  | bare hended =>
      have hpieces := pieces_append hequals (ended_nil ['='])
      rw [List.append_nil] at hpieces
      rw [read_eq_readSetting htext hread.name hcolon hended, readSetting, hpieces]
      simp [find?_name hread hmem, laterPieces]
  | @written word rest _ hvalue hword hword' hended =>
      -- The setting goes on behind the word if an equals sign ends the word.
      obtain ⟨more, tail, rfl, hmore, htail⟩ := exists_first_piece ':' rest
      have hmore' : Ended ['='] more := by
        cases more with
        | nil => simp [Ended]
        | cons c more => simp_all [Ended, eq_comm]
      have hsetting : ':' ∉ switch.name.toList ++ '=' :: (word ++ more) := by
        simp [hcolon, hword, hmore]
      rw [read_eq_readSetting (by rw [htext]; simp) hread.name hsetting htail, readSetting,
        pieces_append hequals (by simp [Ended]), laterPieces, pieces_append hword' hmore']
      simp [find?_name hread hmem, hvalue]

theorem gives_of_read {string : String} (hread : pass.Readable) (hmem : switch ∈ pass.switches)
    (h : pass.read string = .set switch.name value) : pass.Gives switch string.toList value := by
  obtain ⟨setting, rest, htext, hname, hsetting, hrest⟩ :=
    exists_setting_of_read (h ▸ Reading.noConfusion : pass.read string ≠ .silent)
  rw [read_eq_readSetting htext hname hsetting hrest, readSetting] at h
  obtain ⟨name, tail, rfl, hequals, htail⟩ := exists_first_piece '=' setting
  rw [pieces_append hequals htail] at h
  simp only at h
  cases hfind : pass.switches.find? (·.name = String.ofList name) with
  | none => simp [hfind] at h
  | some found =>
      rw [hfind] at h
      have hfound : found.name = String.ofList name := by simpa using List.find?_some hfind
      have hsame : found.name = switch.name → found = switch := fun heq => by
        rw [← hfound, heq, find?_name hread hmem] at hfind
        exact (Option.some.inj hfind).symm
      cases tail with
      | nil =>
          simp only [laterPieces, Reading.set.injEq] at h
          obtain ⟨heq, rfl⟩ := h
          rw [htext, List.append_nil, ← String.toList_ofList (l := name), ← hfound, heq]
          exact .bare hrest
      | cons c tail =>
          obtain rfl : c = '=' := by simpa [Ended] using htail
          obtain ⟨word, more, rfl, hword, hmore⟩ := exists_first_piece '=' tail
          rw [laterPieces, pieces_append hword hmore] at h
          simp only at h
          cases hparse : found.parse (String.ofList word) with
          | none => simp [hparse] at h
          | some read =>
              simp only [hparse, Reading.set.injEq] at h
              obtain ⟨heq, rfl⟩ := h
              obtain rfl := hsame heq
              have hended : Ended [':', '='] (more ++ rest) := by
                cases more <;> simp_all [Ended]
              have hshape : string.toList =
                  pass.name.toList ++
                    ':' :: (found.name.toList ++ '=' :: (word ++ (more ++ rest))) := by
                rw [htext, hfound, String.toList_ofList]
                simp
              rw [hshape]
              exact .written hparse (fun hmem => hsetting (by simp [hmem])) hword hended

theorem read_eq_set_iff {string : String} (hread : pass.Readable) (hmem : switch ∈ pass.switches) :
    pass.read string = .set switch.name value ↔ pass.Gives switch string.toList value :=
  ⟨gives_of_read hread hmem, read_of_gives hread hmem⟩

/-- With one colon and one equals sign at most there is nothing that is not looked at. -/
theorem gives_iff_of_count_le (hcolons : text.count ':' ≤ 1) (hequals : text.count '=' ≤ 1) :
    pass.Gives switch text value ↔
      (value = true ∧ text = pass.name.toList ++ ':' :: switch.name.toList) ∨
        ∃ word, switch.parse (String.ofList word) = some value ∧ ':' ∉ word ∧ '=' ∉ word ∧
          text = pass.name.toList ++ ':' :: (switch.name.toList ++ '=' :: word) := by
  constructor
  · intro h
    cases h with
    | @bare rest hended =>
        refine Or.inl ⟨rfl, ?_⟩
        cases rest with
        | nil => simp
        | cons c rest =>
            obtain rfl : c = ':' := by simpa [Ended] using hended
            simp [List.count_append] at hcolons
            omega
    | @written word rest _ hvalue hword hword' hended =>
        refine Or.inr ⟨word, hvalue, hword, hword', ?_⟩
        cases rest with
        | nil => simp
        | cons c rest =>
            obtain rfl | rfl : c = ':' ∨ c = '=' := by simpa [Ended] using hended
            · simp [List.count_append] at hcolons
              omega
            · simp [List.count_append] at hequals
              omega
  · rintro (⟨rfl, rfl⟩ | ⟨word, hvalue, hword, hword', rfl⟩)
    · have hgives : pass.Gives switch _ true := .bare (ended_nil _)
      simpa using hgives
    · have hgives : pass.Gives switch _ value := .written hvalue hword hword' (ended_nil _)
      simpa using hgives

/-! ## The last string that counts -/

section

variable {readings : List Reading} {name : String} {texts earlier later : List String}
  {string : String}

theorem given_concat (readings : List Reading) (reading : Reading) :
    given (readings ++ [reading]) =
      match reading with
      | .set switch value => (given readings).insert switch value
      | _ => given readings := by
  rw [given, List.foldl_append]
  rfl

theorem get?_given_append {more : List Reading} (h : ∀ value, Reading.set name value ∉ more) :
    (given (readings ++ more)).get? name = (given readings).get? name := by
  induction more using List.reverseRecOn with
  | nil => rw [List.append_nil]
  | append_singleton more last ih =>
      have hmore : ∀ value, Reading.set name value ∉ more :=
        fun value hmem => h value (List.mem_append_left _ hmem)
      rw [← List.append_assoc, given_concat]
      cases last with
      | set other value =>
          have hne : other ≠ name := fun heq => h value (by simp [heq])
          exact (Table.get?_insert ..).trans ((if_neg hne).trans (ih hmore))
      | _ => exact ih hmore

/-- The defaults leave what is there, and the first switch of a name adds what is not. -/
theorem get?_withDefaults (pass : PassOptions) (table : Table String Bool) (name : String) :
    (pass.withDefaults table).get? name =
      (table.get? name).or ((pass.switches.find? (·.name = name)).map Switch.default) := by
  unfold withDefaults
  generalize pass.switches = switches
  induction switches generalizing table with
  | nil => simp
  | cons first others ih =>
      rw [List.foldl_cons, ih]
      by_cases hname : first.name = name
      · rw [List.find?_cons_of_pos (by simpa using hname)]
        cases hget : table.get? name <;> simp [Table.contains, hname, hget, Table.get?_insert]
      · rw [List.find?_cons_of_neg (by simpa using hname)]
        split
        · rfl
        · rw [Table.get?_insert, if_neg hname]

theorem get?_settings_of_gives (hread : pass.Readable) (hmem : switch ∈ pass.switches)
    (h : pass.Gives switch string.toList value)
    (hlater : ∀ other ∈ later, ∀ value, ¬pass.Gives switch other.toList value) :
    (pass.settings (earlier ++ string :: later)).get? switch.name = some value := by
  have hlast : ∀ value, Reading.set switch.name value ∉ later.map pass.read := by
    intro value hset
    obtain ⟨other, hother, heq⟩ := List.mem_map.mp hset
    exact hlater other hother value (gives_of_read hread hmem heq)
  have hsplit : (earlier ++ string :: later).map pass.read =
      (earlier.map pass.read ++ [.set switch.name value]) ++ later.map pass.read := by
    simp [read_of_gives hread hmem h]
  rw [settings, get?_withDefaults, hsplit, get?_given_append hlast, given_concat, Table.get?_insert,
    if_pos rfl, Option.some_or]

theorem get?_settings_of_forall_not_gives (hread : pass.Readable) (hmem : switch ∈ pass.switches)
    (h : ∀ string ∈ texts, ∀ value, ¬pass.Gives switch string.toList value) :
    (pass.settings texts).get? switch.name = some switch.default := by
  have hnone : ∀ value, Reading.set switch.name value ∉ texts.map pass.read := by
    intro value hset
    obtain ⟨other, hother, heq⟩ := List.mem_map.mp hset
    exact h other hother value (gives_of_read hread hmem heq)
  have hgiven : (given ([] ++ texts.map pass.read)).get? switch.name = none :=
    get?_given_append hnone
  rw [List.nil_append] at hgiven
  rw [settings, get?_withDefaults, hgiven, find?_name hread hmem]
  rfl

end

end PassOptions

namespace SchedulingOptions

open PassOptions

theorem readable_pass : pass.Readable := ⟨by decide, by decide, by decide⟩

/-- The choice that a switch makes. -/
def choice (options : SchedulingOptions) (switch : Switch) : Bool :=
  if switch.name = lateSwitch.name then options.dataPathLate else options.registerAll

theorem choice_ofSettings {switch : Switch} {value : Bool} {table : Table String Bool}
    (hmem : switch ∈ pass.switches) (h : table.get? switch.name = some value) :
    (ofSettings table).choice switch = value := by
  have hswitch : switch = lateSwitch ∨ switch = registerSwitch := by simpa [pass] using hmem
  rcases hswitch with rfl | rfl
  · simp [choice, ofSettings, h]
  · rw [choice, if_neg (by decide)]
    simp [ofSettings, h]

theorem parseBool_eq_some {word : String} {value : Bool} :
    Switch.parseBool word = some value ↔ word = toString value := by
  unfold Switch.parseBool
  constructor
  · intro h
    split at h <;> cases h <;> rfl
  · rintro rfl
    cases value <;> rfl

/-- Each switch makes the choice that the last string gives which gives one, and the default choice
if there is none.  A string with one colon and one equals sign at most gives a choice only if it is
the name of the pass, a colon and the name of the switch, or that with an equals sign and `true` or
`false` behind it. -/
theorem choice_ofStrings {switch : Switch} (hmem : switch ∈ pass.switches) (texts : List String) :
    (∀ earlier string later value, texts = earlier ++ string :: later →
      pass.Gives switch string.toList value →
      (∀ other ∈ later, ∀ value, ¬pass.Gives switch other.toList value) →
      (ofStrings texts).choice switch = value) ∧
    ((∀ string ∈ texts, ∀ value, ¬pass.Gives switch string.toList value) →
      (ofStrings texts).choice switch = switch.default) ∧
    ∀ string : String, string.toList.count ':' ≤ 1 → string.toList.count '=' ≤ 1 → ∀ value,
      pass.Gives switch string.toList value ↔
        (value = true ∧ string = "sched:" ++ switch.name) ∨
          string = "sched:" ++ switch.name ++ "=" ++ toString value := by
  refine ⟨?_, fun hnone => ?_, fun string hcolons hequals value => ?_⟩
  · rintro earlier string later value rfl hgives hlater
    exact choice_ofSettings hmem (get?_settings_of_gives readable_pass hmem hgives hlater)
  · exact choice_ofSettings hmem (get?_settings_of_forall_not_gives readable_pass hmem hnone)
  · have hparse : switch.parse = Switch.parseBool := by
      have hswitch : switch = lateSwitch ∨ switch = registerSwitch := by simpa [pass] using hmem
      rcases hswitch with rfl | rfl <;> rfl
    rw [gives_iff_of_count_le hcolons hequals, hparse]
    refine or_congr (and_congr_right fun _ => ?_) ⟨?_, fun heq => ?_⟩
    · rw [← String.toList_inj]
      simp [pass]
    · rintro ⟨word, hword, -, -, htext⟩
      rw [parseBool_eq_some] at hword
      rw [← String.toList_inj, htext, ← String.toList_ofList (l := word), hword]
      simp [pass]
    · refine ⟨(toString value).toList, ?_, ?_, ?_, ?_⟩
      · rw [parseBool_eq_some, String.ofList_toList]
      · cases value <;> decide
      · cases value <;> decide
      · rw [heq]
        simp [pass]

/-- What stands behind the value is not looked at. -/
example : (ofStrings ["sched:datapath-alap=false=maybe"]).dataPathLate = false := by decide +kernel

end SchedulingOptions

end SlotScheduling
