/-
  GluaLs.CowShards.Contract — what the maps promise their callers, after every run.

    • **`run_reads_plain`** — `get`, `contains_key`, `len`, `is_empty`, `iter` and
      `file_entries` of a map are those of the plain map the simulation gives it.  `iter` walks
      the shards slot by slot; no key is met twice, because a key's entry is in the slot of the
      key only (`nodupKeys_iter`).
    • **`install_three_way`** — a fork, written to in any way while the frozen map stands, is
      installed into any other map: each key is merged three ways, and the install reports a
      conflict exactly when a key was changed on both sides, to different values, which is
      when `both_changed_keys` has a key to show for it.
    • **`installAll_eq_installEach`** — installing forks together leaves what installing them
      one after another leaves, and reports the same forks.

  All three are about values whose `==` is equality.  An install compares what no task wrote
  as well, and takes a NaN for a change (`install_three_way_nan`, `run_reads_plain_nan`).
-/
import GluaLs.CowShards.Refine
import GluaLs.Types.LuaType

namespace GluaLs.Cow

open GluaLs.Lib World

variable {K V : Type} [DecidableEq K] [ShardKey K] {w : World K V} {s : Plain K V} {n : Nat}

/-! ## §1. Keyed reads -/

theorem get_eq_contents (w : World K V) (n : Nat) (key : K) :
    w.get n key = (w.contents n (slotOf key)).lookup key := by
  unfold World.get
  rw [← getD_shard]
  cases w.shard n (slotOf key) <;> rfl

theorem Sim.get (h : Sim w s) (hn : w.Live n) {key : K} (hfit : SlotFits key) :
    w.get n key = s.get n key := by
  rw [get_eq_contents, h.entries n hn _ hfit key, if_pos rfl]

theorem Sim.containsKey (h : Sim w s) (hn : w.Live n) {key : K} (hfit : SlotFits key) :
    w.containsKey n key = (s.get n key).isSome := by
  rw [← h.get hn hfit]
  unfold World.containsKey World.get
  cases w.shard n (slotOf key) <;> rfl

/-! ## §2. Iteration -/

section

variable (h : Sim w s) (hn : w.Live n)
include h hn

theorem mem_iter (k : K) (v : V) :
    (⟨k, v⟩ : Sigma fun _ : K => V) ∈ w.iter n ↔ s.get n k = some v := by
  unfold iter shardList
  simp only [List.mem_flatMap, List.mem_filterMap, List.mem_range]
  constructor
  · rintro ⟨sh, ⟨i, hi, hsh⟩, hmem⟩
    have hi32 := lt_of_lt_of_le hi (slotEnd_le h.wf hn)
    have hlook := h.entries n hn i hi32 k
    rw [← getD_shard, hsh, Option.getD_some, (mem_entries_iff _ _ _).1 hmem] at hlook
    split_ifs at hlook
    exact hlook.symm
  · intro hv
    have hfit : SlotFits k := h.fits n k (by rw [hv]; simp)
    have hlook := h.entries n hn _ hfit k
    rw [if_pos rfl, hv] at hlook
    obtain ⟨p, hp⟩ := held_of_lookup hlook
    rw [contents_of_held hp] at hlook
    refine ⟨w.shards.mem p, ⟨slotOf k, lt_slotEnd hfit hp, ?_⟩, (mem_entries_iff _ _ _).2 hlook⟩
    rw [shard_eq, hp]
    rfl

/-- A key met in a shard is a key of the shard's slot. -/
theorem slotOf_of_mem_shard {i : Nat} (hi : i < 2 ^ 32)
    {sh : Shard K V} (hsh : w.shard n i = some sh) {k : K} (hk : k ∈ sh.keys) : slotOf k = i := by
  have hlook := h.entries n hn i hi k
  rw [← getD_shard, hsh, Option.getD_some] at hlook
  by_contra hne
  rw [if_neg hne] at hlook
  exact (mem_keys_iff sh k).1 hk hlook

/-- The shards of distinct slots share no key. -/
theorem nodupKeys_shards (slots : List Nat) :
    slots.Nodup → (∀ i ∈ slots, i < 2 ^ 32) →
      ((slots.filterMap (w.shard n)).flatMap AList.entries).NodupKeys := by
  induction slots with
  | nil => intro _ _; exact List.nodup_nil
  | cons i slots ih =>
    intro hnodup hlt
    rw [List.nodup_cons] at hnodup
    have ih := ih hnodup.2 (fun j hj => hlt j (by simp [hj]))
    rw [List.filterMap_cons]
    cases hsh : w.shard n i with
    | none => exact ih
    | some sh =>
      simp only [List.flatMap_cons]
      unfold List.NodupKeys List.keys
      rw [List.map_append]
      refine .append sh.nodupKeys ih ?_
      intro k hk hk'
      -- a key met again would be of two slots
      obtain ⟨e, he, rfl⟩ := List.mem_map.1 hk'
      obtain ⟨sh', hsh', hmem⟩ := List.mem_flatMap.1 he
      obtain ⟨j, hj, hj'⟩ := List.mem_filterMap.1 hsh'
      have hi := slotOf_of_mem_shard h hn (hlt i (by simp)) hsh hk
      have hj'' := slotOf_of_mem_shard h hn (hlt j (by simp [hj])) hj'
        (List.mem_map_of_mem (f := Sigma.fst) hmem)
      exact hnodup.1 (hi ▸ hj'' ▸ hj)

/-- **No key is met twice.** -/
theorem nodupKeys_iter : (w.iter n).NodupKeys :=
  nodupKeys_shards h hn _ List.nodup_range
    (fun _ hi => lt_of_lt_of_le (List.mem_range.1 hi) (slotEnd_le h.wf hn))

theorem iter_perm {m : PlainMap K V}
    (hm : s.maps.lookup n = some m) : (w.iter n).Perm m.entries.entries := by
  refine perm_entries m.entries (w.iter n) (nodupKeys_iter h hn) ?_
  intro k v
  rw [mem_iter h hn, get_of_lookup hm]

end

omit [DecidableEq K] [ShardKey K] in
theorem len_eq (w : World K V) (n : Nat) : w.len n = (w.iter n).length := by
  unfold len iter
  rw [List.length_flatMap]

omit [DecidableEq K] [ShardKey K] in
theorem isEmpty_eq (w : World K V) (n : Nat) : w.isEmpty n = (w.iter n).isEmpty := by
  unfold isEmpty iter
  generalize w.shardList n = l
  induction l with
  | nil => rfl
  | cons sh l ih =>
    rw [List.all_cons, List.flatMap_cons, ih]
    cases sh.entries <;> rfl

theorem fileEntries_perm (h : Sim w s) (hn : w.Live n) {m : PlainMap K V}
    (hm : s.maps.lookup n = some m) {f : FileId} (hf : fileSlot K f < 2 ^ 32) :
    (w.fileEntries n f).Perm
      (m.entries.entries.filter fun e => ShardKey.shardOwner e.1 = .file f) := by
  have hshard : w.fileEntries n f = (w.contents n (fileSlot K f)).entries := by
    unfold fileEntries
    rw [← getD_shard]
    cases w.shard n (fileSlot K f) with
    | none => rfl
    | some sh => simp
  rw [hshard]
  have hnodup : (m.entries.entries.filter fun e =>
      ShardKey.shardOwner e.1 = .file f).NodupKeys :=
    (List.filter_sublist.map Sigma.fst).nodup m.entries.nodupKeys
  refine (perm_entries (w.contents n (fileSlot K f)) _ hnodup ?_).symm
  intro k v
  rw [List.mem_filter, mem_entries_iff, h.entries n hn _ hf k, get_of_lookup hm]
  have howner := slotOf_eq_fileSlot k f
  by_cases hk : slotOf k = fileSlot K f
  · simp [hk, howner.1 hk]
  · simp [hk, mt howner.2 hk]

/-! ## §3. Every run -/

variable [DecidableEq V]

/-- **Each map reads as its own plain map**, after every run of operations over any number of
    maps that share shards and tables. -/
theorem run_reads_plain (ops : List (Op K V)) (s : Plain K V) (h : Plain.run ops = some s)
    (n : Nat) (m : PlainMap K V) (hm : s.maps.lookup n = some m) :
    (∀ key, SlotFits key →
      (World.run ops).get n key = m.entries.lookup key ∧
      (World.run ops).containsKey n key = (m.entries.lookup key).isSome) ∧
    (World.run ops).len n = m.entries.entries.length ∧
    (World.run ops).isEmpty n = m.entries.entries.isEmpty ∧
    ((World.run ops).iter n).Perm m.entries.entries ∧
    ((World.run ops).iter n).NodupKeys ∧
    ∀ f : FileId, fileSlot K f < 2 ^ 32 →
      ((World.run ops).fileEntries n f).Perm
        (m.entries.entries.filter fun e => ShardKey.shardOwner e.1 = .file f) := by
  have hsim := sim_run ops s h
  have hn : (World.run ops).Live n := (hsim.live n).2 (by rw [hm]; simp)
  have hiter := iter_perm hsim hn hm
  refine ⟨?_, ?_, ?_, hiter, nodupKeys_iter hsim hn, fun f hf => fileEntries_perm hsim hn hm hf⟩
  · intro key hfit
    rw [hsim.get hn hfit, hsim.containsKey hn hfit, get_of_lookup hm]
    exact ⟨rfl, rfl⟩
  · rw [len_eq, hiter.length_eq]
  · rw [isEmpty_eq]
    exact hiter.isEmpty_eq

/-- A fork, a write on each side, an install into the map forked from, whose table the frozen
    clone still shares, and a fold; and the install of a map that replaced a fork whole. -/
theorem run_reads_plain_installed :
    (World.run ([.new 0, .insert 0 ⟨3⟩ 5, .insert 0 ⟨4⟩ 6, .clone 0 1, .fork 1 2,
      .insert 2 ⟨3⟩ 7, .remove 2 ⟨4⟩, .insert 0 ⟨9⟩ 1, .installWith 0 1 2 none, .flatten 0] :
      List (Op FileId Nat))).get 0 ⟨3⟩ = some 7 ∧
    (World.run ([.new 0, .insert 0 ⟨1⟩ 10, .insert 0 ⟨2⟩ 20, .clone 0 1, .new 2,
      .insert 2 ⟨3⟩ 30, .installWith 0 1 2 none] : List (Op FileId Nat))).len 0 = 1 := by
  have hrun : ∃ s m, Plain.run ([.new 0, .insert 0 ⟨3⟩ 5, .insert 0 ⟨4⟩ 6, .clone 0 1,
      .fork 1 2, .insert 2 ⟨3⟩ 7, .remove 2 ⟨4⟩, .insert 0 ⟨9⟩ 1, .installWith 0 1 2 none,
      .flatten 0] : List (Op FileId Nat)) = some s ∧ s.maps.lookup 0 = some m ∧
      m.entries.lookup ⟨3⟩ = some 7 :=
    ⟨_, _, rfl, rfl, rfl⟩
  have hwhole : ∃ s m, Plain.run ([.new 0, .insert 0 ⟨1⟩ 10, .insert 0 ⟨2⟩ 20, .clone 0 1,
      .new 2, .insert 2 ⟨3⟩ 30, .installWith 0 1 2 none] : List (Op FileId Nat)) = some s ∧
      s.maps.lookup 0 = some m ∧ m.entries.entries.length = 1 :=
    ⟨_, _, rfl, rfl, rfl⟩
  obtain ⟨s, m, hs, hm, hv⟩ := hrun
  obtain ⟨s', m', hs', hm', hv'⟩ := hwhole
  exact ⟨((run_reads_plain _ s hs 0 m hm).1 ⟨3⟩ (by decide)).1.trans hv,
    (run_reads_plain _ s' hs' 0 m' hm').2.1.trans hv'⟩

/-- What a fact holds of a float literal, compared by `==` of floats. -/
structure FloatFact where
  value : Types.F64
  deriving DecidableEq

instance : BEq FloatFact := ⟨fun a b => a.value.eq b.value⟩

/-- A quiet NaN. -/
def nanFact : FloatFact := ⟨⟨0x7FF8000000000000⟩⟩

/-- A frozen clone 1 with a NaN, whose fork 2 writes another key of the shard. -/
def nanFork : List (Op (FileId × Nat) FloatFact) :=
  [.new 0, .insert 0 (⟨3⟩, 1) nanFact, .clone 0 1, .fork 1 2, .insert 2 (⟨3⟩, 2) ⟨⟨0⟩⟩]

/-- **A NaN that no one wrote counts as the fork's change**: it is put back over what map 0
    wrote. -/
theorem run_reads_plain_nan :
    ¬ ∀ (ops : List (Op (FileId × Nat) FloatFact)) (s : Plain (FileId × Nat) FloatFact)
      (m : PlainMap (FileId × Nat) FloatFact), Plain.run ops = some s →
      s.maps.lookup 0 = some m → (World.run ops).get 0 (⟨3⟩, 1) = m.entries.lookup (⟨3⟩, 1) := by
  intro h
  have hread := h (nanFork ++ [.insert 0 (⟨3⟩, 1) ⟨⟨0⟩⟩, .installWith 0 1 2 none]) _ _ rfl rfl
  exact absurd hread (by decide +kernel)

/-! ## §4. What an operation touches -/

/-- The maps an operation makes, writes entries of, takes or drops.  `flatten` moves shards,
    but writes no entry. -/
def Op.written : Op K V → List Nat
  | .new n => [n]
  | .insert n _ _ => [n]
  | .remove n _ => [n]
  | .getMut n _ _ => [n]
  | .entry n _ _ => [n]
  | .retain n _ => [n]
  | .iterMut n _ => [n]
  | .clear n => [n]
  | .clone _ m => [m]
  | .fork _ m => [m]
  | .installWith a _ b _ => [a, b]
  | .installAll a _ forks _ => a :: forks.map Prod.snd
  | .flatten _ => []
  | .drop n => [n]
  | .free _ => []

/-- The maps an operation takes or drops. -/
def Op.taken : Op K V → List Nat
  | .installWith _ _ b _ => [b]
  | .installAll _ _ forks _ => forks.map Prod.snd
  | .drop n => [n]
  | _ => []

section

omit [DecidableEq K] [ShardKey K] [DecidableEq V]

theorem write_lookup {s s' : Plain K V} {n x : Nat} {f : HashMap K V → HashMap K V}
    (h : s.write n f = some s') :
    s'.maps.lookup x = if x = n then
      (s.maps.lookup n).map fun m => { m with entries := f m.entries, version := s.clock }
      else s.maps.lookup x := by
  obtain ⟨m, hm, rfl⟩ := Option.map_eq_some_iff.1 h
  rw [lookup_insert_ite, hm]
  rfl

theorem copy_lookup {s s' : Plain K V} {n m x : Nat} {f : PlainMap K V → PlainMap K V}
    (h : s.copy n m f = some s') :
    s.maps.lookup m = none ∧
      s'.maps.lookup x = if x = m then (s.maps.lookup n).map f else s.maps.lookup x := by
  unfold Plain.copy at h
  split_ifs at h with hm
  obtain ⟨c, hc, rfl⟩ := Option.map_eq_some_iff.1 h
  exact ⟨by simpa using hm, by rw [lookup_insert_ite, hc]; rfl⟩

end

omit [DecidableEq K] [DecidableEq V] in
theorem writeKey_write {s s' : Plain K V} {n : Nat} {key : K} {f : HashMap K V → HashMap K V}
    (h : s.writeKey n key f = some s') : s.write n f = some s' := by
  unfold Plain.writeKey at h
  split_ifs at h
  exact h

omit [ShardKey K] in
theorem install_lookup {s s' : Plain K V} {a z x : Nat} {forks : List Nat}
    {merge : Option (Merge V)} (h : s.install a z forks merge = some s') (hx : x ∉ forks) :
    ∃ e, s'.maps.lookup x = if x = a then
      (s.maps.lookup a).map fun m => { m with entries := e, version := s.clock }
      else s.maps.lookup x := by
  unfold Plain.install at h
  split_ifs at h
  obtain ⟨s₁, hwrite, rfl⟩ := Option.map_eq_some_iff.1 h
  refine ⟨AList.ofKeys (s.keys a ++ s.keys z ++ forks.flatMap s.keys) fun k =>
    threeWayFold merge (s.get z k) (s.get a k) (forks.map fun b => s.get b k), ?_⟩
  rw [lookup_foldl_erase, if_neg hx, write_lookup hwrite]

/-- A map the operation does not write stands as it did. -/
theorem step_not_written {s s' : Plain K V} {op : Op K V} (h : s.step op = some s') {z : Nat}
    (hz : z ∉ op.written) : s'.maps.lookup z = s.maps.lookup z := by
  cases op with
  | new n =>
    simp only [Plain.step] at h
    split_ifs at h
    cases h
    exact (lookup_insert_ite _ _ _ _).trans (if_neg (by simpa [Op.written] using hz))
  | insert n key value | remove n key | getMut n key f | entry n key f =>
    exact (write_lookup (writeKey_write h)).trans (if_neg (by simpa [Op.written] using hz))
  | retain n keep | iterMut n f =>
    exact (write_lookup h).trans (if_neg (by simpa [Op.written] using hz))
  | clear n =>
    exact (write_lookup (f := fun _ => ∅) h).trans (if_neg (by simpa [Op.written] using hz))
  | clone n m | fork n m => exact (copy_lookup h).2.trans (if_neg (by simpa [Op.written] using hz))
  | installWith a y b merge =>
    simp only [Op.written, List.mem_cons, List.not_mem_nil, or_false, not_or] at hz
    obtain ⟨_, hl⟩ := install_lookup (x := z) h (by simpa using hz.2)
    exact hl.trans (if_neg hz.1)
  | installAll a y forks merge =>
    simp only [Op.written, List.mem_cons, not_or] at hz
    obtain ⟨_, hl⟩ := install_lookup (x := z) h hz.2
    exact hl.trans (if_neg hz.1)
  | flatten n =>
    simp only [Plain.step] at h
    split_ifs at h
    cases h
    rfl
  | drop n =>
    simp only [Plain.step] at h
    split_ifs at h
    cases h
    exact (lookup_erase_ite _ _ _).trans (if_neg (by simpa [Op.written] using hz))
  | free p =>
    simp only [Plain.step] at h
    cases h
    rfl

/-- A map the operation does not take stays what it is a copy of. -/
theorem step_not_taken {s s' : Plain K V} {op : Op K V} (h : s.step op = some s') {b : Nat}
    (hb : b ∉ op.taken) {m : PlainMap K V} (hm : s.maps.lookup b = some m) :
    ∃ m', s'.maps.lookup b = some m' ∧ m'.origin = m.origin ∧ m'.made = m.made := by
  have hwrite : ∀ {n f}, s.write n f = some s' →
      ∃ m', s'.maps.lookup b = some m' ∧ m'.origin = m.origin ∧ m'.made = m.made := by
    intro n f hw
    by_cases hbn : b = n
    · subst hbn
      exact ⟨{ m with entries := f m.entries, version := s.clock },
        (write_lookup hw).trans (by rw [if_pos rfl, hm]; rfl), rfl, rfl⟩
    · exact ⟨m, (write_lookup hw).trans (by rw [if_neg hbn, hm]), rfl, rfl⟩
  have hcopy : ∀ {n c f}, s.copy n c f = some s' →
      ∃ m', s'.maps.lookup b = some m' ∧ m'.origin = m.origin ∧ m'.made = m.made := by
    intro n c f hc
    have hbc : b ≠ c := by
      rintro rfl
      rw [(copy_lookup (x := b) hc).1] at hm
      cases hm
    exact ⟨m, (copy_lookup hc).2.trans (by rw [if_neg hbc, hm]), rfl, rfl⟩
  have hinstall : ∀ {a z forks merge}, b ∉ forks → s.install a z forks merge = some s' →
      ∃ m', s'.maps.lookup b = some m' ∧ m'.origin = m.origin ∧ m'.made = m.made := by
    intro a z forks merge hbf hi
    obtain ⟨e, hl⟩ := install_lookup (x := b) hi hbf
    by_cases hba : b = a
    · subst hba
      exact ⟨{ m with entries := e, version := s.clock },
        hl.trans (by rw [if_pos rfl, hm]; rfl), rfl, rfl⟩
    · exact ⟨m, hl.trans (by rw [if_neg hba, hm]), rfl, rfl⟩
  by_cases hwr : b ∉ op.written
  · exact ⟨m, (step_not_written h hwr).trans hm, rfl, rfl⟩
  · cases op with
    | new n =>
      simp only [Plain.step] at h
      split_ifs at h with hn
      have hbn : b = n := by simpa [Op.written] using hwr
      subst hbn
      rw [hm] at hn
      exact absurd rfl hn
    | insert n key value | remove n key | getMut n key f | entry n key f =>
      exact hwrite (writeKey_write h)
    | retain n keep => exact hwrite h
    | iterMut n f => exact hwrite h
    | clear n => exact hwrite (f := fun _ => ∅) h
    | clone n c => exact hcopy h
    | fork n c => exact hcopy h
    | installWith a z b' merge | installAll a z forks merge =>
      exact hinstall (by simpa [Op.taken] using hb) h
    | flatten n | free p => exact absurd (by simp [Op.written]) hwr
    | drop n => exact absurd (by simpa [Op.taken, Op.written] using hb) hwr

/-- A fork stays one while the map it was taken from stands. -/
theorem isFork_steps {z b : Nat} (ops : List (Op K V)) :
    ∀ {s s' : Plain K V}, ops.foldlM Plain.step s = some s' → s.IsFork z b →
      (∀ op ∈ ops, z ∉ op.written) → (∀ op ∈ ops, b ∉ op.taken) → s'.IsFork z b := by
  induction ops with
  | nil =>
    intro s s' h hf _ _
    cases h
    exact hf
  | cons op ops ih =>
    intro s s' h hf hz hb
    rw [List.foldlM_cons] at h
    obtain ⟨s₁, hstep, hrest⟩ := Option.bind_eq_some_iff.1 h
    obtain ⟨mz, mb, hmz, hmb, ho⟩ := hf
    obtain ⟨mb', hmb', ho', hmade⟩ := step_not_taken hstep (hb op (by simp)) hmb
    refine ih hrest ⟨mz, mb', ?_, hmb', ?_⟩ (fun op' hop => hz op' (by simp [hop]))
      (fun op' hop => hb op' (by simp [hop]))
    · exact (step_not_written hstep (hz op (by simp))).trans hmz
    · rwa [ho', hmade]

theorem run_append_fork {ops₀ ops₁ : List (Op K V)} {s : Plain K V} {z b : Nat}
    (h : Plain.run (ops₀ ++ .fork z b :: ops₁) = some s) (hz : ∀ op ∈ ops₁, z ∉ op.written)
    (hb : ∀ op ∈ ops₁, b ∉ op.taken) : s.IsFork z b ∧ z ≠ b := by
  unfold Plain.run at h
  rw [List.foldlM_append] at h
  obtain ⟨s₀, -, h⟩ := Option.bind_eq_some_iff.1 h
  rw [List.foldlM_cons] at h
  obtain ⟨s₁, hfork, hrest⟩ := Option.bind_eq_some_iff.1 h
  have hfork : s₀.copy z b (fun c => { c with origin := some c.version }) = some s₁ := hfork
  have hfree := (copy_lookup (x := b) hfork).1
  have hlb := (copy_lookup (x := b) hfork).2
  rw [if_pos rfl] at hlb
  cases hmz : s₀.maps.lookup z with
  | none =>
    -- the fork could not have been taken
    unfold Plain.copy at hfork
    rw [hmz] at hfork
    split_ifs at hfork
    cases hfork
  | some m =>
    have hzb : z ≠ b := by
      rintro rfl
      rw [hfree] at hmz
      cases hmz
    rw [hmz] at hlb
    refine ⟨isFork_steps ops₁ hrest ⟨m, _, ?_, hlb, .inl rfl⟩ hz hb, hzb⟩
    exact (copy_lookup (x := z) hfork).2.trans (by rw [if_neg hzb, hmz])

/-! ## §5. One install -/

omit [ShardKey K] [DecidableEq V] in
theorem valueIn_heldShard (w : World K V) (n i : Nat) (k : K) :
    valueIn ((w.heldShard n i).map w.shards.mem) k = (w.contents n i).lookup k :=
  (lookup_getD_map _ k).symm

/-- `changed_keys` lists the keys the fork changed. -/
theorem mem_changedKeys {w : World K V} {s : Plain K V} {z b : Nat} (h : Sim w s)
    (hz : w.Live z) (hb : w.Live b) (hcov : Covers w z b) (k : K) :
    k ∈ w.changedKeys z b ↔ SlotFits k ∧ w.get b k ≠ w.get z k := by
  unfold changedKeys
  simp only [List.mem_flatMap, mem_changedEntries, valueIn_heldShard, get_eq_contents]
  constructor
  · rintro ⟨i, hi, hne⟩
    have hi32 := lt_of_mem_forkedSlots h.wf hz hb hi
    rw [h.entries b hb i hi32 k, h.entries z hz i hi32 k] at hne
    split_ifs at hne with hk
    · subst hk
      refine ⟨hi32, ?_⟩
      rw [h.entries b hb _ hi32 k, h.entries z hz _ hi32 k, if_pos rfl, if_pos rfl]
      exact hne
    · exact absurd rfl hne
  · rintro ⟨hfit, hne⟩
    refine ⟨slotOf k, ?_, hne⟩
    by_contra hout
    exact hne (by
      rw [contents_eq_of_held_eq (heldShard_eq_of_not_mem_forkedSlots hcov hfit hout)])

/-- Both sides changed a key, to different values. -/
def BothChanged (w : World K V) (a z b : Nat) (k : K) : Prop :=
  SlotFits k ∧ w.get b k ≠ w.get z k ∧ w.get a k ≠ w.get z k ∧ w.get a k ≠ w.get b k

theorem mem_bothChangedKeys {w : World K V} {s : Plain K V} {a z b : Nat} (h : Sim w s)
    (hz : w.Live z) (hb : w.Live b) (hcov : Covers w z b) (k : K) :
    k ∈ w.bothChangedKeys a z b ↔ BothChanged w a z b k := by
  unfold bothChangedKeys BothChanged
  rw [List.mem_filter, mem_changedKeys h hz hb hcov]
  simp only [Bool.and_eq_true, bne_iff_ne, and_assoc]

theorem install_spec {w : World K V} {s : Plain K V} {a z b : Nat} (h : Sim w s)
    (ha : w.Live a) (hz : w.Live z) (hb : w.Live b) (hab : a ≠ b) (hza : z ≠ a) (hzb : z ≠ b)
    (hcov : Covers w z b) :
    (∀ k, SlotFits k → (w.install a z b).1.get a k =
      if w.get b k = w.get z k then w.get a k else w.get b k) ∧
    ((w.install a z b).2 = true ↔ ∃ k, BothChanged w a z b k) := by
  have hinst := installWith_spec h.wf ha hz hb hab hza hzb hcov none
  constructor
  · intro k hfit
    simp only [get_eq_contents]
    exact (hinst.lookup (slotOf k) hfit k).trans (threeWay_none_fst _ _ _)
  · refine hinst.conflict.trans ?_
    unfold BothChanged
    simp only [get_eq_contents]
    constructor
    · rintro ⟨i, hi, k, hk⟩
      rw [mergedAt, threeWay_none_snd] at hk
      by_cases hslot : slotOf k = i
      · subst hslot
        exact ⟨k, hi, hk⟩
      · rw [h.entries b hb i hi k, h.entries z hz i hi k, if_neg hslot, if_neg hslot] at hk
        exact absurd rfl hk.1
    · rintro ⟨k, hfit, hk⟩
      refine ⟨slotOf k, hfit, k, ?_⟩
      rw [mergedAt, threeWay_none_snd]
      exact hk

/-- **The contract of `install`.**  After any run: `b` was forked from `z`, which nothing wrote
    since, while `b`, `a` and any other map were written to in any way. -/
theorem install_three_way (ops₀ ops₁ : List (Op K V)) (s : Plain K V) (a z b : Nat)
    (hrun : Plain.run (ops₀ ++ .fork z b :: ops₁) = some s)
    (hz : ∀ op ∈ ops₁, z ∉ op.written) (hb : ∀ op ∈ ops₁, b ∉ op.taken)
    (ha : s.maps.lookup a ≠ none) (haz : a ≠ z) (hab : a ≠ b) :
    let w := World.run (ops₀ ++ .fork z b :: ops₁)
    (∀ k, SlotFits k → (w.install a z b).1.get a k =
      if w.get b k = w.get z k then w.get a k else w.get b k) ∧
    ((w.install a z b).2 = true ↔ ∃ k, SlotFits k ∧
      w.get b k ≠ w.get z k ∧ w.get a k ≠ w.get z k ∧ w.get a k ≠ w.get b k) ∧
    ((w.install a z b).2 = true ↔ w.bothChangedKeys a z b ≠ []) := by
  intro w
  have hsim : Sim w s := sim_run _ s hrun
  obtain ⟨hfork, hzb⟩ := run_append_fork hrun hz hb
  obtain ⟨mz, mb, hmz, hmb, -⟩ := hfork
  have hlive_a : w.Live a := (hsim.live a).2 ha
  have hlive_z : w.Live z := (hsim.live z).2 (by rw [hmz]; simp)
  have hlive_b : w.Live b := (hsim.live b).2 (by rw [hmb]; simp)
  have hcov := hsim.covers (run_append_fork hrun hz hb).1
  obtain ⟨hget, hconf⟩ := install_spec hsim hlive_a hlive_z hlive_b hab haz.symm hzb hcov
  refine ⟨hget, hconf, hconf.trans ?_⟩
  rw [List.ne_nil_iff_exists_cons]
  constructor
  · rintro ⟨k, hk⟩
    have hmem := (mem_bothChangedKeys hsim hlive_z hlive_b hcov k).2 hk
    cases hl : w.bothChangedKeys a z b with
    | nil => rw [hl] at hmem; cases hmem
    | cons k' l => exact ⟨k', l, rfl⟩
  · rintro ⟨k, l, hl⟩
    exact ⟨k, (mem_bothChangedKeys hsim hlive_z hlive_b hcov k).1 (by rw [hl]; simp)⟩

/-- Map 0 and its frozen clone 1, a fork 2 of the clone that changes a key map 0 changes too. -/
theorem install_three_way_conflict :
    let w := World.run (([.new 0, .insert 0 ⟨3⟩ 5, .clone 0 1] : List (Op FileId Nat)) ++
      .fork 1 2 :: [.insert 2 ⟨3⟩ 7, .insert 0 ⟨3⟩ 8])
    (w.install 0 1 2).1.get 0 ⟨3⟩ = some 7 ∧ (w.install 0 1 2).2 = true ∧
      w.bothChangedKeys 0 1 2 ≠ [] := by
  have hrun : ∃ s, Plain.run (([.new 0, .insert 0 ⟨3⟩ 5, .clone 0 1] : List (Op FileId Nat)) ++
      .fork 1 2 :: [.insert 2 ⟨3⟩ 7, .insert 0 ⟨3⟩ 8]) = some s ∧ s.maps.lookup 0 ≠ none :=
    ⟨_, rfl, by decide⟩
  obtain ⟨s, hs, ha⟩ := hrun
  obtain ⟨hget, hchanged, hkeys⟩ :=
    install_three_way _ _ s 0 1 2 hs (by decide) (by decide) ha (by decide) (by decide)
  have hconflict := hchanged.2 ⟨⟨3⟩, by decide, by decide +kernel,
    by decide +kernel, by decide +kernel⟩
  exact ⟨(hget ⟨3⟩ (by decide)).trans (by decide +kernel), hconflict, hkeys.1 hconflict⟩

/-- **An untouched NaN is listed as changed on both sides**, where the install takes the
    fork's shard whole and reports no conflict. -/
theorem install_three_way_nan :
    ¬ ((((World.run nanFork).install 0 1 2).2 = true) ↔
      (World.run nanFork).bothChangedKeys 0 1 2 ≠ []) := by
  intro h
  have hkeys : (World.run nanFork).bothChangedKeys 0 1 2 = [(⟨3⟩, 1)] := by decide
  have hconflict := h.2 (by rw [hkeys]; simp)
  exact absurd hconflict (by decide)

/-! ## §6. Forks together and one after another -/

omit [ShardKey K] in
theorem installEach_sublist (merge : Option (Merge V)) (a z : Nat) (forks : List (Nat × Nat)) :
    ∀ st : World K V × List Nat, ∃ conflicted, (forks.foldl (fun st fork =>
        let (w, conflicted) := st.1.installWith a z fork.2 merge
        (w, if conflicted then st.2 ++ [fork.1] else st.2)) st).2 = st.2 ++ conflicted ∧
      conflicted.Sublist (forks.map Prod.fst) := by
  induction forks with
  | nil => intro st; exact ⟨[], by simp, .refl _⟩
  | cons fork forks ih =>
    intro st
    rw [List.foldl_cons]
    obtain ⟨conflicted, hlist, hsub⟩ := ih
      (let (w, conflicted) := st.1.installWith a z fork.2 merge
       (w, if conflicted then st.2 ++ [fork.1] else st.2))
    rw [hlist]
    simp only
    split_ifs
    · exact ⟨fork.1 :: conflicted, by simp, hsub.cons_cons _⟩
    · exact ⟨conflicted, rfl, hsub.cons _⟩

theorem pairwise_dedup_sorted (l : List Nat) :
    ((l.insertionSort (· ≤ ·)).dedup).Pairwise (· < ·) := by
  have hsorted : (l.insertionSort (· ≤ ·)).Pairwise (· ≤ ·) := List.pairwise_insertionSort _ l
  have hle : ((l.insertionSort (· ≤ ·)).dedup).Pairwise (· ≤ ·) :=
    hsorted.sublist (List.dedup_sublist _)
  refine (hle.and (List.nodup_dedup _)).imp ?_
  rintro a b ⟨hab, hne⟩
  exact lt_of_le_of_ne hab hne

/-- **Forks installed together leave what installing them one after another leaves**, and the
    same forks are reported: as a set for any places, as a list for places in order. -/
theorem installAll_eq_installEach (ops : List (Op K V)) (s : Plain K V)
    (hrun : Plain.run ops = some s) (a z : Nat) (forks : List (Nat × Nat))
    (merge : Option (Merge V)) (hcan : s.CanInstall a z (forks.map Prod.snd)) :
    let w := World.run ops
    (∀ k, SlotFits k → (w.installAll a z forks merge).1.get a k
      = (w.installEach a z forks merge).1.get a k) ∧
    ((w.installAll a z forks merge).1.iter a).Perm ((w.installEach a z forks merge).1.iter a) ∧
    (w.installAll a z forks merge).2.toFinset = (w.installEach a z forks merge).2.toFinset ∧
    ((forks.map Prod.fst).Pairwise (· < ·) →
      (w.installAll a z forks merge).2 = (w.installEach a z forks merge).2) := by
  intro w
  have hsim : Sim w s := sim_run ops s hrun
  have hable := installable_of_canInstall hsim hcan
  have hall := installAll_spec hsim.wf merge hable
  have heach := installEach_spec hsim.wf merge hable
  have hmem : ∀ p, p ∈ (w.installAll a z forks merge).2 ↔ p ∈ (w.installEach a z forks merge).2 :=
    fun p => (hall.conflict p).trans (heach.conflict p).symm
  -- both leave a world of the same plain maps
  have hplain : ∃ s', s.install a z (forks.map Prod.snd) merge = some s' := by
    unfold Plain.install
    rw [if_pos hcan]
    obtain ⟨m, hm⟩ := Option.ne_none_iff_exists'.1 hcan.1
    unfold Plain.write
    rw [hm]
    exact ⟨_, rfl⟩
  obtain ⟨s', hs'⟩ := hplain
  have hsim_all : Sim (w.installAll a z forks merge).1 s' :=
    hsim.install forks hs' (fun _ => ⟨_, hall⟩)
  have hsim_each : Sim (w.installEach a z forks merge).1 s' :=
    hsim.install forks hs' (fun _ => ⟨_, heach⟩)
  obtain ⟨m, hm⟩ := Option.ne_none_iff_exists'.1 ((hsim_all.live a).1 hall.live)
  refine ⟨?_, ?_, ?_, ?_⟩
  · intro k hfit
    rw [hsim_all.get hall.live hfit, hsim_each.get heach.live hfit]
  · exact (iter_perm hsim_all hall.live hm).trans (iter_perm hsim_each heach.live hm).symm
  · ext p
    rw [List.mem_toFinset, List.mem_toFinset, hmem]
  · intro hplaces
    obtain ⟨c, hc, hsub⟩ := installEach_sublist merge a z forks (w, [])
    have heach_lt : (w.installEach a z forks merge).2.Pairwise (· < ·) := by
      unfold installEach
      rw [hc]
      exact hplaces.sublist hsub
    refine List.Pairwise.eq_of_mem_iff ?_ heach_lt hmem
    unfold installAll
    split_ifs
    · exact heach_lt
    · exact pairwise_dedup_sorted _

/-- Two forks of a frozen clone that change one key, installed into the map cloned. -/
theorem installAll_eq_installEach_two :
    let w := World.run ([.new 0, .insert 0 ⟨3⟩ 5, .clone 0 1, .fork 1 2, .fork 1 3,
      .insert 2 ⟨3⟩ 7, .insert 3 ⟨3⟩ 8] : List (Op FileId Nat))
    (w.installAll 0 1 [(0, 2), (1, 3)] none).2 = (w.installEach 0 1 [(0, 2), (1, 3)] none).2 := by
  have hrun : ∃ s, Plain.run ([.new 0, .insert 0 ⟨3⟩ 5, .clone 0 1, .fork 1 2, .fork 1 3,
      .insert 2 ⟨3⟩ 7, .insert 3 ⟨3⟩ 8] : List (Op FileId Nat)) = some s ∧
      s.CanInstall 0 1 ([(0, 2), (1, 3)].map Prod.snd) :=
    ⟨_, rfl, by decide⟩
  obtain ⟨s, hs, hcan⟩ := hrun
  exact (installAll_eq_installEach _ s hs 0 1 [(0, 2), (1, 3)] none hcan).2.2.2 (by decide)

end GluaLs.Cow
