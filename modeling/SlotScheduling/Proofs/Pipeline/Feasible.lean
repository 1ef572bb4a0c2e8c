import SlotScheduling.Proofs.Pipeline.Climbs

/-!
# Slots that a loop has at some interval

Without an interval, a loop always has slots that fit.  With one that meets its cycles it has slots
that fit within the ceiling of the search, as soon as twice the interval reaches the ceiling.
-/

namespace SlotScheduling.Graph

open Arc

variable {g : Graph} {block : BlockId} {entrySlot interval total criticalPath : Nat}
  {id first exit branch source control : UnitId} {orders : UnitId → UnitId → Prop}
  {length span : Int} {slots slots' value least : UnitId → Int}

/-- The latencies of the edges into a unit. -/
def latencyInto (g : Graph) (id : UnitId) : Nat :=
  (g.units[id]?.map fun unit => (unit.deps.values.map (·.edge.latency)).sum).getD 0

theorem latency_le_latencyInto {user : UnitId} {bundle : EdgeBundle}
    (h : g.bundle? user source = some bundle) : bundle.edge.latency ≤ g.latencyInto user := by
  obtain ⟨unit, hunit, hdep⟩ := exists_of_bundle? h
  rw [latencyInto, hunit]
  exact List.le_sum_of_mem
    (List.mem_map_of_mem (List.mem_map_of_mem (Table.mem_entries_of_get?_eq_some hdep)))

theorem sum_latencyInto (g : Graph) :
    ∑ id ∈ Finset.range g.units.size, g.latencyInto id = g.latencySum := by
  have hunits : (List.range g.units.size).map g.latencyInto =
      g.units.toList.map fun unit => (unit.deps.values.map (·.edge.latency)).sum := by
    refine List.ext_getElem (by simp) fun id hid _ => ?_
    have hlt : id < g.units.size := by simpa using hid
    simp [latencyInto, Array.getElem?_eq_getElem hlt]
  rw [latencySum, List.flatMap_def, List.sum_flatten, List.map_map]
  exact congrArg List.sum hunits

/-! ## Climbing between slots that fit -/

/-- Slots that fit are at least as far apart as one climbs between them within an iteration. -/
theorem Fits.climbs (hg : g.Looping block entrySlot exit branch)
    (hslots : g.Fits exit interval slots) (hfirst : g.IsControl first)
    (hclimbs : Climbs g (fun _ _ => False) first id length) :
    (g.IsControl id → slots first + length ≤ slots id) ∧
      (g.IsData id → ∃ control span, LookThrough.Spans g (loopBounds interval) control id span ∧
        slots first + length ≤ slots control + span) := by
  induction hclimbs with
  | start => exact ⟨fun _ => (add_zero _).le, fun hdata => absurd hdata hfirst.not_isData⟩
  | @wait source user length bundle _ hbundle hlocal ih =>
      have hasks := asks_of_local hg.toOfBlock hbundle hlocal interval
      have hlt : source < g.units.size := by
        obtain ⟨unit, hunit, hdep⟩ := exists_of_bundle? hbundle
        obtain ⟨producer, hproducer⟩ :=
          hg.toWellFormed.exists_source hunit (Table.mem_entries_of_get?_eq_some hdep)
        exact lt_size_of_getElem? hproducer
      rcases isControl_or_isData hlt with hsource | hsource
      · have hle := ih.1 hsource
        refine ⟨fun huser => ?_, fun huser => ?_⟩
        · have := hslots.direct hsource huser hasks
          omega
        · exact ⟨source, _, .start hsource huser (hg.untangled _) hasks, by omega⟩
      · obtain ⟨control, span, hspans, hle⟩ := ih.2 hsource
        refine ⟨fun huser => ?_, fun huser => ?_⟩
        · have := hslots.through hspans huser hasks
          omega
        · exact ⟨control, _, hspans.step huser (hg.untangled _) hasks, by omega⟩
  | turn _ horder => exact horder.elim

theorem exists_climbs (h : Relation.ReflTransGen g.WaitsWithin first id) :
    ∃ length, 0 ≤ length ∧ Climbs g (fun _ _ => False) first id length := by
  induction h with
  | refl => exact ⟨0, le_rfl, .start⟩
  | tail _ hwaits ih =>
      obtain ⟨length, hlength, hclimbs⟩ := ih
      obtain ⟨bundle, hbundle, hlocal⟩ := hwaits
      exact ⟨_, by positivity, hclimbs.wait hbundle hlocal⟩

open Classical in
/-- Control units start from the entry slot, and units of the data path so far below that they add
nothing. -/
noncomputable def floor (g : Graph) (depth : Nat) (id : UnitId) : Int :=
  if g.IsControl id then g.entrySlot else g.entrySlot - depth

theorem floor_of_isControl (h : g.IsControl id) (depth : Nat) : g.floor depth id = g.entrySlot :=
  if_pos h

theorem floor_le (g : Graph) (depth : Nat) (id : UnitId) : g.floor depth id ≤ g.entrySlot := by
  unfold floor
  split <;> omega

/-- Slots that fit are no lower than what is reached from below by climbing within an iteration. -/
theorem Fits.floor_add_le (hg : g.Looping block entrySlot exit branch)
    (hslots : g.Fits exit interval slots) (depth : Nat) (hfirst : first < g.units.size)
    (hclimbs : Climbs g (fun _ _ => False) first id length) (hlength : length ≤ depth)
    (hid : g.IsControl id) : g.floor depth first + length ≤ slots id := by
  rcases isControl_or_isData hfirst with hisControl | hisData
  · have := (hslots.climbs hg hisControl hclimbs).1 hid
    have := hslots.free hisControl
    rw [floor_of_isControl hisControl]
    omega
  · have := hslots.free hid
    rw [floor, if_neg fun hisControl => hisControl.not_isData hisData]
    omega

/-- Of two slots that fit at an interval, the lower ones fit. -/
theorem Fits.min (h : g.Fits exit interval slots) (h' : g.Fits exit interval slots') :
    g.Fits exit interval fun id => min (slots id) (slots' id) where
  entry := by rw [h.entry, h'.entry, min_self]
  loop hpos hloop := by rw [h.loop hpos hloop, h'.loop hpos hloop, min_self]
  free hid := le_min (h.free hid) (h'.free hid)
  direct hsource huser hasks := by
    have := h.direct hsource huser hasks
    have := h'.direct hsource huser hasks
    omega
  through hspans huser hasks := by
    have := h.through hspans huser hasks
    have := h'.through hspans huser hasks
    omega
  moves hmove hdepends := by
    have := h.moves hmove hdepends
    have := h'.moves hmove hdepends
    omega

/-! ## Steady values as slots -/

theorem Steady.spans (hsteady : Steady g interval orders least total value)
    (hspans : LookThrough.Spans g (loopBounds interval) control source span) :
    value control + span ≤ value source := by
  induction hspans with
  | start _ _ _ hasks => exact hsteady.asks hasks
  | step _ _ _ hasks ih =>
      have := hsteady.asks hasks
      omega

theorem exists_user_of_spans {bounds : ControlBounds}
    (hspans : LookThrough.Spans g bounds control source span) :
    ∃ user, g.IsData user ∧ g.DependsOn user control := by
  induction hspans with
  | start _ hdata _ hasks => exact ⟨_, hdata, hasks.dependsOn⟩
  | step _ _ _ _ ih => exact ih

/-- The loop operation and the exit in slots of their own. -/
def pinned (branch exit : UnitId) (atBranch atExit : Int) (value : UnitId → Int) (id : UnitId) :
    Int :=
  if id = exit then atExit else if id = branch then atBranch else value id

section

variable (hg : g.Looping block entrySlot exit branch)

include hg

theorem Looping.branch_lt : branch < exit := hg.loopOp hg.loops

theorem Looping.entryRoot_ne : g.entryRoot ≠ exit ∧ g.entryRoot ≠ branch := by
  refine ⟨?_, fun heq => hg.entryNoLoop (heq ▸ hg.loops)⟩
  rintro rfl
  exact Nat.not_lt_zero branch hg.branch_lt

/-- With the loop operation an interval after the entry, and the exit after all that it waits for,
steady values fit. -/
theorem Steady.fits_pinned (hsteady : Steady g interval orders least total value) (last : Int)
    (hentry : value g.entryRoot = g.entrySlot)
    (hfree : ∀ {id}, g.IsControl id → (g.entrySlot : Int) ≤ value id)
    (hbranch : value branch ≤ g.entrySlot + interval) (hexit : value exit ≤ last)
    (hwaits : ∀ {bundle}, g.bundle? exit branch = some bundle →
      (g.entrySlot : Int) + interval + bundle.edge.latency ≤ last)
    (hmoves : ∀ {source}, g.IsMove source → g.DependsOn exit source →
      value source + interval ≤ last) :
    g.Fits exit interval (pinned branch exit (g.entrySlot + interval) last value) := by
  have hlt := hg.branch_lt
  have hpinned : ∀ {id}, id ≠ exit → id ≠ branch →
      pinned branch exit (g.entrySlot + interval) last value id = value id :=
    fun hne hne' => by rw [pinned, if_neg hne, if_neg hne']
  have hatExit : pinned branch exit (g.entrySlot + interval) last value exit = last := if_pos rfl
  have hatBranch : pinned branch exit (g.entrySlot + interval) last value branch =
      g.entrySlot + interval := by
    rw [pinned, if_neg hlt.ne, if_pos rfl]
  -- What a user other than the exit has to wait for is no lower than before.
  have hkeeps : ∀ {user : UnitId} {x : Int}, user ≠ exit → x ≤ value user →
      x ≤ pinned branch exit (g.entrySlot + interval) last value user := by
    intro user x hne hle
    by_cases heq : user = branch
    · subst heq
      rw [hatBranch]
      exact hle.trans hbranch
    · rwa [hpinned hne heq]
  refine ⟨?_, ?_, ?_, ?_, ?_, ?_⟩
  · rw [hpinned hg.entryRoot_ne.1 hg.entryRoot_ne.2, hentry]
  · intro loop _ hloop
    obtain rfl : branch = loop := Option.some.inj (hg.loops.symm.trans hloop)
    exact hatBranch
  · intro id hid
    by_cases heq : id = exit
    · subst heq
      rw [hatExit]
      exact (hfree hid).trans hexit
    · exact hkeeps heq (hfree hid)
  · intro source user offset hsource huser hasks
    have hsourceNe : source ≠ exit := fun heq => hg.final (heq ▸ hasks.dependsOn)
    by_cases heq : user = exit
    · subst heq
      rw [hatExit]
      by_cases heq : source = branch
      · subst heq
        obtain ⟨bundle, hbundle, hoffset, -⟩ := exists_bundle_of_asks hg.toOfBlock hasks
        have hlocal := (hg.waits hbundle).2
        rw [hatBranch, hoffset, DepEdge.offsetAt, hlocal]
        simpa using hwaits hbundle
      · rw [hpinned hsourceNe heq]
        exact (hsteady.asks hasks).trans hexit
    · have hne : source ≠ branch := fun hsame => heq (hg.loopUsers (hsame ▸ hasks.dependsOn))
      rw [hpinned hsourceNe hne]
      exact hkeeps heq (hsteady.asks hasks)
  · intro control source user span offset hspans huser hasks
    obtain ⟨other, hother, hdepends⟩ := exists_user_of_spans hspans
    have hne : control ≠ exit := fun heq => hg.final (heq ▸ hdepends)
    have hne' : control ≠ branch := fun heq =>
      hg.exitControl.not_isData (hg.loopUsers (heq ▸ hdepends) ▸ hother)
    have huserNe : user ≠ exit := by
      rintro rfl
      obtain ⟨bundle, hbundle, -⟩ := exists_bundle_of_asks hg.toOfBlock hasks
      exact (hg.waits hbundle).1.not_isData hspans.isData
    rw [hpinned hne hne']
    refine hkeeps huserNe ?_
    have := hsteady.spans hspans
    have := hsteady.asks hasks
    omega
  · intro source hmove hdepends
    have hne : source ≠ exit := fun heq => hg.final (heq ▸ hdepends)
    have hne' : source ≠ branch := fun heq => hg.loopNoMove (heq ▸ hmove)
    rw [hatExit, hpinned hne hne']
    exact hmoves hmove hdepends

/-- Values that grow along all dependencies at an interval, from the entry slot on. -/
theorem Looping.exists_value (hmeets : 0 < interval → g.MeetsCycles block interval) :
    ∃ value, Steady g interval (fun _ _ => False) (g.floor g.latencySum) g.latencySum value ∧
      value g.entryRoot = g.entrySlot ∧
      (∀ {id}, g.IsControl id →
        (g.entrySlot : Int) ≤ value id ∧ value id ≤ g.entrySlot + g.latencySum) ∧
      ∀ {id interval' slots}, g.IsControl id → g.Fits exit interval' slots →
        value id ≤ slots id ∨ 0 < interval ∧ value id + interval ≤ g.entrySlot + g.latencySum := by
  have hcaps : g.Caps (fun _ _ => False) g.latencyInto :=
    ⟨latency_le_latencyInto, False.elim⟩
  obtain ⟨value, hsteady⟩ := exists_steady hcaps hg.toOfBlock interval False.elim
    (fun node cycle hwalk hsimple => by
      have hforward : ∀ {source user}, g.WaitsWithin source user → source < user :=
        fun ⟨_, hbundle, hlocal⟩ => hg.forward hbundle hlocal
      rcases Nat.eq_zero_or_pos interval with rfl | hpos
      · exact totalWeight_closed_le hcaps hg.toOfBlock hforward False.elim
          (fun hpos => absurd hpos (Nat.lt_irrefl 0)) hwalk hsimple
      · exact totalWeight_closed_le_of_meets hg.toOfBlock hforward (hmeets hpos) hwalk hsimple)
    (g.floor g.latencySum)
  rw [sum_latencyInto] at hsteady
  refine ⟨value, hsteady, ?_, ?_, ?_⟩
  · rw [hsteady.roots hg.root.lt_size hg.first not_false, floor_of_isControl hg.root]
  · intro id hid
    have habove := hsteady.above hid.lt_size
    rw [floor_of_isControl hid] at habove
    obtain ⟨first, -, length, hvalue, hle, -⟩ := hsteady.climbs hid.lt_size
    have := g.floor_le g.latencySum first
    omega
  · intro id interval' slots hid hslots
    obtain ⟨first, hfirst, length, hvalue, hle, hclimbs | ⟨hpos, hsaved⟩⟩ :=
      hsteady.climbs hid.lt_size
    · refine Or.inl ?_
      have := hslots.floor_add_le hg _ hfirst hclimbs hle hid
      omega
    · have := g.floor_le g.latencySum first
      exact Or.inr ⟨hpos, by omega⟩

/-- Without an interval there are slots that fit. -/
theorem Looping.exists_fits_zero : ∃ slots, g.Fits exit 0 slots ∧
    ∀ {id}, g.IsControl id → slots id ≤ g.entrySlot + g.latencySum := by
  obtain ⟨value, hsteady, hentry, hbounds, -⟩ :=
    hg.exists_value fun hpos => absurd hpos (Nat.lt_irrefl 0)
  refine ⟨value, ⟨hentry, fun hpos => absurd hpos (Nat.lt_irrefl 0), fun hid => (hbounds hid).1,
    fun _ _ hasks => hsteady.asks hasks, fun hspans _ hasks => ?_, fun hmove hdepends => ?_⟩,
    fun hid => (hbounds hid).2⟩
  · have := hsteady.spans hspans
    have := hsteady.asks hasks
    omega
  · obtain ⟨bundle, hbundle⟩ := dependsOn_iff_bundle?.mp hdepends
    have hasks := hsteady.asks
      (asks_of_local hg.toOfBlock hbundle (hg.waits hbundle).2 0)
    rw [hg.movesReady hmove hbundle] at hasks
    exact hasks

/-- The exit waits for the loop operation. -/
theorem Looping.exists_bundle_branch : ∃ bundle, g.bundle? exit branch = some bundle ∧
    ∀ {interval slots}, g.Fits exit interval slots →
      slots branch + bundle.edge.latency ≤ slots exit := by
  have hcontrol := hg.loop hg.loops
  obtain ⟨user, hdepends⟩ := hg.used hcontrol hg.branch_lt.ne
  obtain rfl := hg.loopUsers hdepends
  obtain ⟨bundle, hbundle⟩ := dependsOn_iff_bundle?.mp hdepends
  exact ⟨bundle, hbundle, fun hslots => hslots.direct hcontrol hg.exitControl
    (asks_of_local hg.toOfBlock hbundle (hg.waits hbundle).2 _)⟩

/-- At an interval that meets the cycles and is no less than half of the ceiling, there are slots
that fit within the ceiling. -/
theorem Looping.exists_fits_of_ceiling (hpos : 0 < interval) (hmeets : g.MeetsCycles block interval)
    (hzero : g.Fits exit 0 slots) (hexit : slots exit ≤ g.entrySlot + criticalPath)
    (hpath : criticalPath ≤ g.latencySum)
    (hdouble : criticalPath + g.allowance + 1 ≤ 2 * interval)
    (hle : interval ≤ g.allowance + 1) :
    ∃ slots', g.Fits exit interval slots' ∧
      slots' exit ≤ g.entrySlot + (criticalPath + g.allowance + 1 : Nat) ∧
      ∀ {id}, g.IsControl id →
        slots' id ≤ g.entrySlot + (criticalPath + g.allowance + 1 : Nat) := by
  obtain ⟨value, hsteady, hentry, hbounds, hlow⟩ := hg.exists_value fun _ => hmeets
  obtain ⟨bundle, hbundle, hwaits⟩ := hg.exists_bundle_branch
  have hbranch := hwaits hzero
  have hbranchFree := hzero.free (hg.loop hg.loops)
  have hsum : g.latencySum ≤ g.allowance := Nat.le_add_right _ _
  have hvalue : ∀ {id}, g.IsControl id → slots id ≤ slots exit →
      value id ≤ g.entrySlot + interval ∧
        value id + interval ≤ g.entrySlot + (criticalPath + g.allowance + 1 : Nat) := by
    intro id hid hbefore
    rcases hlow hid hzero with hle | ⟨-, hle⟩ <;> omega
  have hatExit := hvalue hg.exitControl le_rfl
  refine ⟨_, hsteady.fits_pinned hg _ hentry (fun hid => (hbounds hid).1)
    (hvalue (hg.loop hg.loops) (by omega)).1 (by omega) ?_ ?_, (if_pos rfl).le, fun {id} hid => ?_⟩
  · intro bundle' hbundle'
    obtain rfl := Option.some.inj (hbundle.symm.trans hbundle')
    omega
  · intro source hmove hdepends
    obtain ⟨bundle', hbundle'⟩ := dependsOn_iff_bundle?.mp hdepends
    have hbefore := hzero.moves hmove hdepends
    exact (hvalue (hg.waits hbundle').1 (by omega)).2
  · have := (hbounds hid).2
    unfold pinned
    split
    · exact le_rfl
    · split <;> omega

end

end SlotScheduling.Graph
