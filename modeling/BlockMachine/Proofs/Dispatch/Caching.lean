import BlockMachine.Proofs.Program.Table

namespace BlockMachine

/-!
# Sound caches

A line of the current epoch says what a resolution from scratch would say, because all that a
resolution depends on stays the same within an epoch.

* `CacheLine.Valid` and `Caches.Sound` say so of a line and of all lines;
* `Caches.Sound.mono` keeps it in later worlds, where lines of older epochs count no more;
* `Caches.Sound.consult` says that a sound cache answers with the resolution itself.
-/

namespace SiteCache

variable {c : SiteCache} {line : CacheLine}

theorem mem_lines : line ∈ c.lines ↔ some line ∈ c.slots := by
  simp [lines]

/-- A line that is found is for the type and the epoch, and looking for it only moves it. -/
theorem lookup_cases (c : SiteCache) (type : TypeId) (epoch : Nat) :
    (c.lookup type epoch).1 = none ∨
      ∃ line cache, c.lookup type epoch = (some line, cache) ∧ line ∈ c.lines ∧
        line.type = type ∧ line.epoch = epoch ∧ ∀ l ∈ cache.lines, l ∈ c.lines := by
  rw [lookup]
  cases hfind : c.slots.findIdx? (holds fun l => l.type == type && l.epoch == epoch) with
  | none => exact .inl rfl
  | some i =>
    obtain ⟨hi, hholds, _⟩ := List.findIdx?_eq_some_iff_getElem.1 hfind
    cases hslot : c.slots[i] with
    | none =>
      rw [hslot] at hholds
      exact nomatch hholds
    | some line =>
      rw [hslot] at hholds
      simp only [holds, Bool.and_eq_true, beq_iff_eq] at hholds
      have hget : (c.slots[i]?).join = some line := by
        rw [List.getElem?_eq_getElem hi, hslot]
        rfl
      have hmem : line ∈ c.lines := mem_lines.2 (hslot ▸ List.getElem_mem hi)
      refine .inr ⟨line, ⟨some line :: c.slots.eraseIdx i⟩, by simp only [hget], hmem, hholds.1,
        hholds.2, fun l hl => ?_⟩
      rcases List.mem_cons.1 (mem_lines.1 hl) with heq | hrest
      · exact Option.some.inj heq ▸ hmem
      · exact mem_lines.2 (List.mem_of_mem_eraseIdx hrest)

/-- A line that is put in front joins lines that were there. -/
theorem insert_lines {l : CacheLine} (h : l ∈ (c.insert line).lines) : l = line ∨ l ∈ c.lines := by
  rcases List.mem_cons.1 (mem_lines.1 h) with heq | hrest
  · exact .inl (Option.some.inj heq)
  · refine .inr (mem_lines.2 ?_)
    -- a line of the same type is overwritten, otherwise the last one is dropped
    have hmem := (List.dropLast_sublist _).mem hrest
    split at hmem
    · rcases List.mem_append.1 hmem with hold | hnone
      · exact List.mem_of_mem_eraseIdx hold
      · exact nomatch List.mem_singleton.1 hnone
    · exact hmem

end SiteCache

/-- Known types have numbers that were given out. -/
theorem Ty.Known.id_lt {reg : Registry} {ty : Ty} (h : ty.Known reg) (hreg : reg.Sound) :
    ty.id < reg.nextId := by
  have hget : ∃ ty', reg.types[ty.id]? = some ty' := by
    cases h with
    | basic b => exact ⟨_, hreg.builtin b⟩
    | record declared _ => exact declared.imp' _ fun _ hr => hr
    | module declared => exact declared.imp' _ fun _ hm => hm
  obtain ⟨_, hty⟩ := hget
  exact (List.getElem?_eq_some_iff.1 hty).1

/-- A line at a call site of program `i` is about a declared type, and if it is of the current
    epoch, it says what the name sent at the site means. -/
structure CacheLine.Valid (w : World) (i site : Nat) (line : CacheLine) : Prop where
  type : line.type < w.registry.nextId
  epoch : line.epoch ≤ w.epoch
  resolved : line.epoch = w.epoch → ∃ p name, ∃ s : UInt16, s.toNat = site ∧
    w.slotProgram? i = some p ∧ p.Sends s name ∧
    w.resolveId line.type name = (line.kind, line.target)

theorem CacheLine.Valid.mono {w w' : World} {i site : Nat} {line : CacheLine}
    (h : line.Valid w i site) (hw : w.Grows w') : line.Valid w' i site where
  type := Nat.lt_of_lt_of_le h.type hw.registry.length_le
  epoch := Nat.le_trans h.epoch hw.epoch
  resolved := by
    intro hline
    have hsame : w'.epoch = w.epoch := Nat.le_antisymm (hline ▸ h.epoch) hw.epoch
    obtain ⟨p, name, s, hs, hp, hsends, hresolve⟩ := h.resolved (hline.trans hsame)
    refine ⟨p, name, s, hs, hw.programs hsame i p hp, hsends, ?_⟩
    rw [hw.resolutions hsame line.type h.type name, hresolve]

namespace Caches

/-- All lines of all sites are valid. -/
def Sound (w : World) (c : Caches) : Prop :=
  ∀ i site, ∀ line ∈ (c.site i site).lines, line.Valid w i site

variable {w : World} {c : Caches}

theorem Sound.mono {w' : World} (h : c.Sound w) (hw : w.Grows w') : c.Sound w' :=
  fun i site line hline => (h i site line hline).mono hw

theorem sound_empty (w : World) : Sound w {} := by
  intro i site line hline
  simp [Caches.site, SiteCache.lines, cacheLines, List.replicate] at hline

theorem site_setSite (c : Caches) (i site i' site' : Nat) (cache : SiteCache) :
    (c.setSite i site cache).site i' site' =
      if i = i' ∧ site = site' then cache else c.site i' site' := by
  simp only [Caches.site, setSite, Std.HashMap.getD_insert, beq_iff_eq, Prod.mk.injEq]

theorem Sound.setSite (h : c.Sound w) {i site : Nat} {cache : SiteCache}
    (hcache : ∀ line ∈ cache.lines, line.Valid w i site) : (c.setSite i site cache).Sound w := by
  intro i' site' line hline
  rw [site_setSite] at hline
  split at hline
  next heq =>
    obtain ⟨rfl, rfl⟩ := heq
    exact hcache line hline
  next => exact h i' site' line hline

/-- The resolution of a name that a program sends at a site is a valid line there. -/
theorem valid_resolvedLine (hw : w.Coherent) {i : Nat} {p : Program}
    (hp : w.slotProgram? i = some p) {s : UInt16} {name : String} (hsends : p.Sends s name)
    {v : Value} (hv : v.Known w.registry) : (w.resolvedLine v name).Valid w i s.toNat where
  type := hv.type.id_lt hw.registry
  epoch := Nat.le_refl _
  resolved := fun _ => ⟨p, name, s, rfl, hp, hsends, (World.resolve_eq hw.registry hv name).symm⟩

/-- **A sound cache is transparent.** At a site of a program that sends one name at each site, it
    answers with the resolution of the name, and stays sound. -/
theorem Sound.consult (h : c.Sound w) (hw : w.Coherent) {i : Nat} {p : Program}
    (hp : w.slotProgram? i = some p) {s : UInt16} {name : String} (hsends : p.Sends s name)
    {v : Value} (hv : v.Known w.registry) :
    (c.consult i s.toNat (w.resolvedLine v name)).1 = w.resolvedLine v name ∧
      (c.consult i s.toNat (w.resolvedLine v name)).2.Sound w := by
  have hvalid := valid_resolvedLine hw hp hsends hv
  simp only [Caches.consult]
  rcases SiteCache.lookup_cases (c.site i s.toNat) (w.resolvedLine v name).type
    (w.resolvedLine v name).epoch with hnone | ⟨line, cache, hfound, hmem, htype, hepoch, hlines⟩
  · -- a miss answers with the resolution and puts it in front
    generalize SiteCache.lookup _ _ _ = r at hnone
    obtain ⟨_, cache⟩ := r
    obtain rfl := hnone
    refine ⟨rfl, h.setSite fun line hline => ?_⟩
    rcases SiteCache.insert_lines hline with rfl | hold
    · exact hvalid
    · exact h i s.toNat line hold
  · rw [hfound]
    refine ⟨?_, h.setSite fun l hl => h i s.toNat l (hlines l hl)⟩
    -- both lines are about a name that the current program sends at the site, so about the same
    obtain ⟨p', name', s', hs', hp', hsends', hresolve⟩ := (h i s.toNat line hmem).resolved hepoch
    rw [hp] at hp'
    obtain rfl := Option.some.inj hp'
    obtain rfl := UInt16.toNat_inj.1 hs'
    obtain ⟨_, _, _, _, _, hcurrent⟩ := hw.current hp
    obtain rfl := hcurrent.oneNamed s' name name' hsends hsends'
    have hkind : w.resolve v name = (line.kind, line.target) := by
      rw [World.resolve_eq hw.registry hv, ← hresolve, htype]
      rfl
    obtain ⟨type, kind, target, epoch⟩ := line
    obtain rfl := htype
    obtain rfl := hepoch
    simp only [World.resolvedLine, hkind]

end Caches

end BlockMachine
