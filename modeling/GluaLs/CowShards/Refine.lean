/-
  GluaLs.CowShards.Refine — every run of operations on the pointers is a run on plain maps.

  `Sim` ties a world to plain maps: the entry of a key is in the slot of the key and nowhere
  else, and a fork covers the map it is a fork of.  `sim_step` is one operation, `sim_run` a
  whole run.
-/
import GluaLs.CowShards.InstallAll
import GluaLs.CowShards.Plain

namespace GluaLs.Cow

open GluaLs.Lib World

variable {K V : Type}

/-! ## §1. The simulation -/

/-- A fork that only added to its overlay still covers the map it was taken from. -/
theorem covers_of_grows {w w' : World K V} {z n : Nat} (hw : WF w) (hz : w.Live z)
    (hcow : w'.cow z = w.cow z) (hforked : (w.cow n).forked = true) (hcov : Covers w z n)
    (hgrows : Grows w w' n) : Covers w' z n := by
  intro hslots d hd
  rw [hcow] at hslots hd
  rcases hgrows with ⟨hsame, hdirty⟩ | hfresh
  · exact hdirty hforked d (hcov (hsame.symm.trans hslots) d hd)
  · -- a table of its own now
    have hlt := hw.table_lt hz.lookup
    rw [hslots] at hfresh
    exact absurd hlt (Nat.not_lt_of_le hfresh)

variable [DecidableEq K]

theorem get_of_lookup {s : Plain K V} {n : Nat} {m : PlainMap K V} (h : s.maps.lookup n = some m)
    (k : K) : s.get n k = m.entries.lookup k := by
  simp [Plain.get, h]

variable [ShardKey K]

/-- The pointers of `w` hold the plain maps of `s`. -/
structure Sim (w : World K V) (s : Plain K V) : Prop where
  wf : WF w
  live : ∀ n, w.Live n ↔ s.maps.lookup n ≠ none
  entries : ∀ n, w.Live n → ∀ i, i < 2 ^ 32 → ∀ k,
    (w.contents n i).lookup k = if slotOf k = i then s.get n k else none
  fits : ∀ n k, s.get n k ≠ none → SlotFits k
  version_lt : ∀ n m, s.maps.lookup n = some m → m.version < s.clock
  origin_lt : ∀ n m o, s.maps.lookup n = some m → m.origin = some o → o < s.clock
  same : ∀ n n' m m', s.maps.lookup n = some m → s.maps.lookup n' = some m' →
    m.version = m'.version → Covers w n n'
  fork : ∀ z b mz mb, s.maps.lookup z = some mz → s.maps.lookup b = some mb →
    mb.origin = some mz.version → Covers w z b
  forked : ∀ n m, s.maps.lookup n = some m → m.origin ≠ none → (w.cow n).forked = true
  made_lt : ∀ n m, s.maps.lookup n = some m → m.made < s.clock
  apart : ∀ n n' m m', s.maps.lookup n = some m → s.maps.lookup n' = some m' →
    m.made ≠ m'.made → (w.cow n).slots ≠ (w.cow n').slots

theorem sim_init : Sim (World.init K V) (Plain.init K V) where
  wf := wf_init
  live n := ⟨fun h => absurd rfl h, fun h => absurd rfl h⟩
  entries n hn := absurd rfl hn
  fits n k h := absurd rfl h
  version_lt n m h := by cases h
  origin_lt n m o h := by cases h
  same n n' m m' h := by cases h
  fork z b mz mb h := by cases h
  forked n m h := by cases h
  made_lt n m h := by cases h
  apart n n' m m' h := by cases h

/-- A map that may be installed covers the frozen one. -/
theorem Sim.covers {w : World K V} {s : Plain K V} (h : Sim w s) {z b : Nat}
    (hf : s.IsFork z b) : Covers w z b := by
  obtain ⟨mz, mb, hz, hb, ho | hmade⟩ := hf
  · exact h.fork z b mz mb hz hb ho
  · exact fun hslots => absurd hslots (h.apart b z mb mz hb hz hmade)

/-! ## §2. A map rewritten -/

section

variable {w w' : World K V} {s s' : Plain K V} {n : Nat}

/-- What a map put at `n` owes to the maps that stay: those outside `gone`. -/
structure Placed (s : Plain K V) (w' : World K V) (n : Nat) (gone : List Nat) (clock : Nat)
    (m : PlainMap K V) : Prop where
  entries : ∀ i, i < 2 ^ 32 → ∀ k,
    (w'.contents n i).lookup k = if slotOf k = i then m.entries.lookup k else none
  fits : ∀ k, m.entries.lookup k ≠ none → SlotFits k
  version_lt : m.version < clock
  origin_lt : ∀ o, m.origin = some o → o < clock
  same : ∀ x c, x ∉ n :: gone → s.maps.lookup x = some c → c.version = m.version →
    Covers w' x n ∧ Covers w' n x
  fork : ∀ x c, x ∉ n :: gone → s.maps.lookup x = some c →
    (m.origin = some c.version → Covers w' x n) ∧ (c.origin = some m.version → Covers w' n x)
  forked : m.origin ≠ none → (w'.cow n).forked = true
  made_lt : m.made < clock
  apart : ∀ x c, x ∉ n :: gone → s.maps.lookup x = some c → c.made ≠ m.made →
    (w'.cow x).slots ≠ (w'.cow n).slots

/-- `o` stands at `n` now, and the maps `gone` are dropped. -/
theorem Sim.change {o : Option (PlainMap K V)} (gone : List Nat) (h : Sim w s)
    (hmaps : ∀ x, s'.maps.lookup x =
      if x = n then o else if x ∈ gone then none else s.maps.lookup x)
    (hclock : s.clock ≤ s'.clock) (hwf : WF w') (hothers : Others w w' (n :: gone))
    (hlive : w'.Live n ↔ o ≠ none) (hgone : ∀ b ∈ gone, b ≠ n → w'.maps.lookup b = none)
    (hplaced : ∀ m, o = some m → Placed s w' n gone s'.clock m) : Sim w' s' := by
  -- a map is the one at `n`, or stands as it did
  have hcase : ∀ x c, s'.maps.lookup x = some c →
      (x = n ∧ Placed s w' n gone s'.clock c) ∨ (x ∉ n :: gone ∧ s.maps.lookup x = some c) := by
    intro x c hc
    rw [hmaps] at hc
    split_ifs at hc with hx hg
    · exact .inl ⟨hx, hplaced c hc⟩
    · exact .inr ⟨by simp [hx, hg], hc⟩
  have hlives : ∀ x, w'.Live x ↔ s'.maps.lookup x ≠ none := by
    intro x
    rw [hmaps]
    split_ifs with hx hg
    · rw [hx]
      exact hlive
    · simp [Live, hgone x hg hx]
    · rw [hothers.live_iff (by simp [hx, hg])]
      exact h.live x
  refine ⟨hwf, hlives, ?_, ?_, ?_, ?_, ?_, ?_, ?_, ?_, ?_⟩
  · intro x hx i hi k
    obtain ⟨c, hc⟩ := Option.ne_none_iff_exists'.1 ((hlives x).1 hx)
    rw [get_of_lookup hc]
    rcases hcase x c hc with ⟨rfl, hp⟩ | ⟨hout, hc⟩
    · exact hp.entries i hi k
    · have hl : w.Live x := (h.live x).2 (by rw [hc]; simp)
      rw [hothers.contents x hout hl, h.entries x hl i hi k, get_of_lookup hc]
  · intro x k hk
    cases hc : s'.maps.lookup x with
    | none => exact absurd (by simp [Plain.get, hc]) hk
    | some c =>
      rw [get_of_lookup hc] at hk
      rcases hcase x c hc with ⟨rfl, hp⟩ | ⟨hout, hc⟩
      · exact hp.fits k hk
      · exact h.fits x k (by rwa [get_of_lookup hc])
  · intro x c hc
    rcases hcase x c hc with ⟨rfl, hp⟩ | ⟨hout, hc⟩
    · exact hp.version_lt
    · exact lt_of_lt_of_le (h.version_lt x c hc) hclock
  · intro x c o hc ho
    rcases hcase x c hc with ⟨rfl, hp⟩ | ⟨hout, hc⟩
    · exact hp.origin_lt o ho
    · exact lt_of_lt_of_le (h.origin_lt x c o hc ho) hclock
  · intro x y cx cy hx hy hv
    rcases hcase x cx hx with ⟨rfl, hp⟩ | ⟨hxout, hx⟩
    · rcases hcase y cy hy with ⟨rfl, -⟩ | ⟨hyout, hy⟩
      · exact fun _ d hd => hd
      · exact (hp.same y cy hyout hy hv.symm).2
    · rcases hcase y cy hy with ⟨rfl, hp⟩ | ⟨hyout, hy⟩
      · exact (hp.same x cx hxout hx hv).1
      · exact (h.same x y cx cy hx hy hv).of_others hothers hxout hyout
  · intro z b mz mb hz hb ho
    rcases hcase z mz hz with ⟨rfl, hp⟩ | ⟨hzout, hz⟩
    · rcases hcase b mb hb with ⟨rfl, -⟩ | ⟨hbout, hb⟩
      · exact fun _ d hd => hd
      · exact (hp.fork b mb hbout hb).2 ho
    · rcases hcase b mb hb with ⟨rfl, hp⟩ | ⟨hbout, hb⟩
      · exact (hp.fork z mz hzout hz).1 ho
      · exact (h.fork z b mz mb hz hb ho).of_others hothers hzout hbout
  · intro x c hc ho
    rcases hcase x c hc with ⟨rfl, hp⟩ | ⟨hout, hc⟩
    · exact hp.forked ho
    · rw [hothers.cow hout]
      exact h.forked x c hc ho
  · intro x c hc
    rcases hcase x c hc with ⟨rfl, hp⟩ | ⟨hout, hc⟩
    · exact hp.made_lt
    · exact lt_of_lt_of_le (h.made_lt x c hc) hclock
  · intro x y cx cy hx hy hne
    rcases hcase x cx hx with ⟨rfl, hp⟩ | ⟨hxout, hx⟩
    · rcases hcase y cy hy with ⟨rfl, -⟩ | ⟨hyout, hy⟩
      · exact absurd (congrArg PlainMap.made (Option.some.inj (hx.symm.trans hy))) hne
      · exact (hp.apart y cy hyout hy hne.symm).symm
    · rcases hcase y cy hy with ⟨rfl, hp⟩ | ⟨hyout, hy⟩
      · exact hp.apart x cx hxout hx hne
      · rw [hothers.cow hxout, hothers.cow hyout]
        exact h.apart x y cx cy hx hy hne

/-- Map `n` is rewritten and the maps `gone` are dropped. -/
theorem Sim.rewrite {m : PlainMap K V}
    (h : Sim w s) (m' : PlainMap K V) (gone : List Nat) (hn : s.maps.lookup n = some m)
    (hmaps : ∀ x, s'.maps.lookup x =
      if x = n then some m' else if x ∈ gone then none else s.maps.lookup x)
    (hclock : s'.clock = s.clock + 1) (hversion : m'.version = s.clock)
    (horigin : m'.origin = m.origin) (hmade : m'.made = m.made) (hwf : WF w')
    (hothers : Others w w' (n :: gone))
    (hlive : w'.Live n) (hgone : ∀ b ∈ gone, b ≠ n → w'.maps.lookup b = none)
    (hforked : (w'.cow n).forked = (w.cow n).forked) (hgrows : Grows w w' n)
    (hentries : ∀ i, i < 2 ^ 32 → ∀ k,
      (w'.contents n i).lookup k = if slotOf k = i then m'.entries.lookup k else none)
    (hfits : ∀ k, m'.entries.lookup k ≠ none → SlotFits k) : Sim w' s' := by
  refine h.change gone hmaps (by omega) hwf hothers (by simpa using hlive) hgone ?_
  rintro _ ⟨⟩
  refine ⟨hentries, hfits, by omega, ?_, ?_, ?_, ?_, ?_, ?_⟩
  · intro o ho
    have hlt := h.origin_lt n m o hn (horigin ▸ ho)
    omega
  · -- the new version is nobody else's
    intro x c _ hx hv
    exact absurd (h.version_lt x c hx) (by rw [hv, hversion]; exact lt_irrefl _)
  · intro x c hout hx
    constructor
    · intro ho
      rw [horigin] at ho
      exact covers_of_grows h.wf ((h.live x).2 (by rw [hx]; simp)) (hothers.cow hout)
        (h.forked n m hn (by rw [ho]; simp)) (h.fork x n c m hx hn ho) hgrows
    · intro ho
      rw [hversion] at ho
      exact absurd (h.origin_lt x c _ hx ho) (lt_irrefl _)
  · intro ho
    rw [hforked]
    exact h.forked n m hn (horigin ▸ ho)
  · have hlt := h.made_lt n m hn
    rw [hmade]
    omega
  · intro x c hout hx hne
    rw [hothers.cow hout]
    rcases hgrows with ⟨hslots, -⟩ | hfresh
    · rw [hslots]
      exact h.apart x n c m hx hn (hmade ▸ hne)
    · have hlt := h.wf.table_lt ((h.live x).2 (by rw [hx]; simp)).lookup
      exact ne_of_lt (lt_of_lt_of_le hlt hfresh)

/-- A write through one map. -/
theorem Sim.write {f : HashMap K V → HashMap K V} {g : Nat → K → Option V → Option V} (h : Sim w s)
    (hs : s.write n f = some s') (heff : w.Live n → Effect w w' n g)
    (hg : ∀ m : HashMap K V, ∀ i, i < 2 ^ 32 → ∀ k,
      g i k (if slotOf k = i then m.lookup k else none)
        = if slotOf k = i then (f m).lookup k else none)
    (hfits : ∀ m : HashMap K V, (∀ k, m.lookup k ≠ none → SlotFits k) →
      ∀ k, (f m).lookup k ≠ none → SlotFits k) : Sim w' s' := by
  obtain ⟨m, hn, rfl⟩ := Option.map_eq_some_iff.1 hs
  have hlive : w.Live n := (h.live n).2 (by rw [hn]; simp)
  have heff := heff hlive
  refine h.rewrite { m with entries := f m.entries, version := s.clock } [] hn
    (fun x => ?_) rfl rfl rfl rfl heff.wf
    (heff.keeps.others (by simp)) heff.keeps.live (by simp) heff.keeps.forked heff.grows ?_ ?_
  · show (s.maps.insert n _).lookup x = _
    rw [lookup_insert_ite]
    simp only [List.not_mem_nil, if_false]
  · intro i hi k
    rw [heff.lookup i hi k, h.entries n hlive i hi k, get_of_lookup hn]
    exact hg m.entries i hi k
  · refine hfits m.entries ?_
    intro k hk
    rw [← get_of_lookup hn] at hk
    exact h.fits n k hk

/-- A write at one key. -/
theorem Sim.writeKey {key : K}
    {f : HashMap K V → HashMap K V} {g : Option V → Option V} (h : Sim w s)
    (hs : s.writeKey n key f = some s')
    (heff : w.Live n → SlotFits key →
      Effect w w' n (fun i k o => if i = slotOf key ∧ k = key then g o else o))
    (hf : ∀ m : HashMap K V, ∀ k,
      (f m).lookup k = if k = key then g (m.lookup k) else m.lookup k) : Sim w' s' := by
  unfold Plain.writeKey at hs
  split_ifs at hs with hfit
  refine h.write hs (fun hn => heff hn hfit) ?_ ?_
  · intro m i _ k
    rw [hf m k]
    by_cases hk : k = key
    · subst hk
      by_cases hi : slotOf k = i
      · simp [hi]
      · simp [hi, Ne.symm hi]
    · simp [hk]
  · intro m hm k hk
    rw [hf m k] at hk
    split_ifs at hk with hkk
    · exact hkk ▸ hfit
    · exact hm k hk

end

/-! ## §3. Maps made and dropped -/

section

omit [DecidableEq K] [ShardKey K]

variable {w : World K V}

theorem others_put {n : Nat} (c : CowShards) : Others w (w.put n c) [n] := by
  have hmaps : ∀ m, m ∉ [n] → (w.put n c).maps.lookup m = w.maps.lookup m := by
    intro m hm
    rw [lookup_put, if_neg (by simpa using hm)]
  have hheld : ∀ m, m ∉ [n] → ∀ i, (w.put n c).heldShard m i = w.heldShard m i := by
    intro m hm i
    unfold heldShard table
    rw [cow_congr (hmaps m hm)]
    rfl
  refine ⟨hmaps, fun m hm _ i => hheld m hm i, ?_, le_rfl⟩
  intro m hm _ i
  unfold World.contents
  rw [hheld m hm i]
  rfl

/-- A copy of a live map's pointers under a free name. -/
theorem wf_put_copy (hw : WF w) {n m : Nat} (hn : w.Live n) {c : CowShards}
    (hslots : c.slots = (w.cow n).slots) (hdirty : c.dirty = (w.cow n).dirty) :
    WF (w.put m c) :=
  wf_put hw hn hslots fun _ _ hd => hw.arc_lt (.dirty hn.lookup (hdirty ▸ hd))

theorem contents_put_copy {n m : Nat} {c : CowShards} (hslots : c.slots = (w.cow n).slots)
    (hdirty : c.dirty = (w.cow n).dirty) (i : Nat) :
    (w.put m c).contents m i = w.contents n i := by
  unfold World.contents heldShard table
  rw [cow_put, hslots, hdirty]
  rfl

end

/-- A copy, by `clone` or `fork`. -/
theorem Sim.copy {w : World K V} {s s' : Plain K V} {n m : Nat} {c : CowShards}
    {f : PlainMap K V → PlainMap K V} (h : Sim w s) (hs : s.copy n m f = some s')
    (hslots : c.slots = (w.cow n).slots) (hdirty : c.dirty = (w.cow n).dirty)
    (hentries : ∀ p : PlainMap K V, (f p).entries = p.entries)
    (hversion : ∀ p : PlainMap K V, (f p).version = p.version)
    (horigin : ∀ p : PlainMap K V, (f p).origin = p.origin ∨ (f p).origin = some p.version)
    (hforked : ∀ p : PlainMap K V, s.maps.lookup n = some p → (f p).origin ≠ none →
      c.forked = true) (hmade : ∀ p : PlainMap K V, (f p).made = p.made) :
    Sim (w.put m c) s' := by
  unfold Plain.copy at hs
  split_ifs at hs with hm
  obtain ⟨p, hn, rfl⟩ := Option.map_eq_some_iff.1 hs
  have hlive : w.Live n := (h.live n).2 (by rw [hn]; simp)
  have hothers : Others w (w.put m c) [m] := others_put c
  have hcow : (w.put m c).cow m = c := cow_put c
  -- the copy stands to any other map as the map it copies
  have hto : ∀ x, x ∉ [m] → Covers w x n → Covers (w.put m c) x m := by
    intro x hx hcov
    unfold Covers
    rw [hcow, hothers.cow hx, hslots, hdirty]
    exact hcov
  have hfrom : ∀ x, x ∉ [m] → Covers w n x → Covers (w.put m c) m x := by
    intro x hx hcov
    unfold Covers
    rw [hcow, hothers.cow hx, hslots, hdirty]
    exact hcov
  refine h.change [] (o := some (f p)) (fun x => lookup_insert_ite s.maps m x (f p))
    le_rfl (wf_put_copy h.wf hlive hslots hdirty) hothers ?_ (by simp) ?_
  · simp [Live, lookup_put]
  rintro _ ⟨⟩
  refine ⟨?_, ?_, ?_, ?_, ?_, ?_, ?_, ?_, ?_⟩
  · intro i hi k
    rw [contents_put_copy hslots hdirty, h.entries n hlive i hi k, get_of_lookup hn, hentries]
  · intro k hk
    rw [hentries, ← get_of_lookup hn] at hk
    exact h.fits n k hk
  · rw [hversion]
    exact h.version_lt n p hn
  · intro o ho
    rcases horigin p with hor | hor
    · exact h.origin_lt n p o hn (hor ▸ ho)
    · rw [hor] at ho
      cases ho
      exact h.version_lt n p hn
  · intro x c' hx hc hv
    rw [hversion] at hv
    exact ⟨hto x hx (h.same x n c' p hc hn hv), hfrom x hx (h.same n x p c' hn hc hv.symm)⟩
  · intro x c' hx hc
    constructor
    · intro ho
      rcases horigin p with hor | hor
      · exact hto x hx (h.fork x n c' p hc hn (hor ▸ ho))
      · rw [hor] at ho
        exact hto x hx (h.same x n c' p hc hn (Option.some.inj ho).symm)
    · intro ho
      rw [hversion] at ho
      exact hfrom x hx (h.fork n x p c' hn hc ho)
  · intro ho
    rw [hcow]
    exact hforked p hn ho
  · rw [hmade]
    exact h.made_lt n p hn
  · intro x c' hx hc hne
    rw [hcow, hothers.cow hx, hslots]
    exact h.apart x n c' p hc hn (hmade p ▸ hne)

theorem Sim.new {w : World K V} {s : Plain K V} {n : Nat} (h : Sim w s) :
    Sim (w.new n) ⟨s.maps.insert n ⟨∅, s.clock, none, s.clock⟩, s.clock + 1⟩ := by
  have hlookup : ∀ x, (w.new n).maps.lookup x
      = if x = n then some ⟨w.tables.next, ∅, false⟩ else w.maps.lookup x :=
    fun x => lookup_insert_ite w.maps n x _
  have hcow : (w.new n).cow n = ⟨w.tables.next, ∅, false⟩ := by
    simp [World.cow, hlookup]
  have hmem : ∀ t, t < w.tables.next → (w.new n).tables.mem t = w.tables.mem t :=
    fun t ht => Heap.alloc_mem_of_lt _ _ _ ht
  have hempty : (w.new n).tables.mem w.tables.next = [] := Heap.alloc_mem_next _ _
  have hothers : Others w (w.new n) [n] := by
    have hmaps : ∀ m, m ∉ [n] → (w.new n).maps.lookup m = w.maps.lookup m := by
      intro m hm
      rw [hlookup, if_neg (by simpa using hm)]
    have hheld : ∀ m, m ∉ [n] → w.Live m → ∀ i,
        (w.new n).heldShard m i = w.heldShard m i := by
      intro m hm hl i
      unfold heldShard table
      rw [cow_congr (hmaps m hm), hmem _ (h.wf.table_lt hl.lookup)]
    refine ⟨hmaps, hheld, ?_, Nat.le_succ _⟩
    intro m hm hl i
    unfold World.contents
    rw [hheld m hm hl i]
    rfl
  have hwf : WF (w.new n) := by
    refine ⟨?_, ?_, ?_⟩
    · intro x c hx
      rw [hlookup] at hx
      split_ifs at hx
      · cases hx
        exact Nat.lt_succ_self _
      · exact Nat.lt_succ_of_lt (h.wf.table_lt hx)
    · intro x c hx
      rw [hlookup] at hx
      split_ifs at hx
      · cases hx
        rw [hempty]
        simp
      · rw [hmem _ (h.wf.table_lt hx)]
        exact h.wf.table_len hx
    · intro place p harc
      rcases harc with ⟨hx, hd⟩ | ⟨hx, hi⟩ | hi
      · rw [hlookup] at hx
        split_ifs at hx
        · cases hx
          cases hd
        · exact h.wf.arc_lt (.dirty hx hd)
      · rw [hlookup] at hx
        split_ifs at hx
        · cases hx
          rw [hempty] at hi
          cases hi
        · rw [hmem _ (h.wf.table_lt hx)] at hi
          exact h.wf.arc_lt (.slot hx hi)
      · exact h.wf.arc_lt (.loose hi)
  have hheld : ∀ i, (w.new n).heldShard n i = none := by
    intro i
    unfold heldShard table
    rw [hcow, hempty]
    rfl
  -- no version or origin is the next one yet
  refine h.change [] (o := some ⟨∅, s.clock, none, s.clock⟩)
    (fun x => lookup_insert_ite s.maps n x _) (Nat.le_succ _) hwf hothers ?_ (by simp) ?_
  · simp [Live, hlookup]
  rintro _ ⟨⟩
  refine ⟨?_, fun k hk => absurd rfl hk, Nat.lt_succ_self _, by simp, ?_, ?_, by simp,
    Nat.lt_succ_self _, ?_⟩
  · intro i _ k
    rw [contents_of_not_held (hheld i)]
    split_ifs <;> rfl
  · intro x c _ hx hv
    exact absurd (h.version_lt x c hx) (by rw [hv]; exact lt_irrefl _)
  · intro x c _ hx
    refine ⟨by simp, ?_⟩
    intro ho
    exact absurd (h.origin_lt x c _ hx ho) (lt_irrefl _)
  · intro x c hxn hx _
    rw [hothers.cow hxn, hcow]
    exact ne_of_lt (h.wf.table_lt ((h.live x).2 (by rw [hx]; simp)).lookup)

theorem Sim.drop {w : World K V} {s : Plain K V} (h : Sim w s) (n : Nat) :
    Sim (w.dropMap n) { s with maps := s.maps.erase n } := by
  refine h.change [] (o := none) (fun x => lookup_erase_ite s.maps n x) le_rfl
    (wf_dropMap h.wf n) (others_dropMap (by simp)) ?_ (by simp) (by simp)
  simp [Live, lookup_dropMap]

/-! ## §4. Steps no plain map sees -/

/-- Folding the overlay in. -/
theorem Sim.flatten {w : World K V} {s : Plain K V} {n : Nat} (h : Sim w s) (hn : w.Live n) :
    Sim (w.flatten n) s := by
  have heff := flatten_effect h.wf hn
  have hothers : Others w (w.flatten n) [n] := heff.keeps.others (by simp)
  -- either nothing moved, or the map has a table of its own now and no overlay
  have hmoved : (w.flatten n).cow n = w.cow n ∨
      ((w.flatten n).cow n).dirty = ∅ ∧ (w.flatten n).soleTable n = true := by
    obtain ⟨-, -, -, heq | hsole⟩ := foldDirty_spec h.wf hn
    · refine .inl ?_
      show (w.foldDirty n).1.cow n = w.cow n
      rw [heq]
    · exact .inr hsole
  have hlive : ∀ x c, s.maps.lookup x = some c → (w.flatten n).Live x := by
    intro x c hx
    exact (heff.keeps.live_iff hn x).2 ((h.live x).2 (by rw [hx]; simp))
  have hcov : ∀ x y, (w.flatten n).Live x → (w.flatten n).Live y → Covers w x y →
      Covers (w.flatten n) x y := by
    intro x y hx hy hxy
    rcases hmoved with hsame | ⟨hdirty, hsole⟩
    · have hcow : ∀ m, (w.flatten n).cow m = w.cow m := by
        intro m
        by_cases hm : m = n
        · rw [hm, hsame]
        · exact hothers.cow (by simpa using hm)
      unfold Covers
      rw [hcow x, hcow y]
      exact hxy
    · intro hslots d hd
      by_cases hxn : x = n
      · subst hxn
        rw [hdirty] at hd
        exact absurd rfl hd
      · by_cases hyn : y = n
        · subst hyn
          exact absurd ((soleTable_iff _ _).1 hsole x _ hx.lookup hslots.symm) hxn
        · rw [hothers.cow (m := x) (by simpa using hxn)] at hslots hd
          rw [hothers.cow (m := y) (by simpa using hyn)] at hslots ⊢
          exact hxy hslots d hd
  have hapart : ∀ x, (w.flatten n).Live x → x ≠ n →
      (w.cow x).slots ≠ (w.cow n).slots → ((w.flatten n).cow x).slots ≠
        ((w.flatten n).cow n).slots := by
    intro x hx hxn hne hslots
    rcases hmoved with hsame | ⟨-, hsole⟩
    · rw [hsame, hothers.cow (by simpa using hxn)] at hslots
      exact hne hslots
    · exact hxn ((soleTable_iff _ _).1 hsole x _ hx.lookup hslots)
  refine ⟨heff.wf, ?_, ?_, h.fits, h.version_lt, h.origin_lt, ?_, ?_, ?_, h.made_lt, ?_⟩
  · intro x
    rw [heff.keeps.live_iff hn x]
    exact h.live x
  · intro x hx i hi k
    have hl := (heff.keeps.live_iff hn x).1 hx
    by_cases hxn : x = n
    · subst hxn
      rw [heff.lookup i hi k]
      exact h.entries _ hl i hi k
    · rw [hothers.contents x (by simpa using hxn) hl]
      exact h.entries x hl i hi k
  · intro x y cx cy hx hy hv
    exact hcov x y (hlive x cx hx) (hlive y cy hy) (h.same x y cx cy hx hy hv)
  · intro z b mz mb hz hb ho
    exact hcov z b (hlive z mz hz) (hlive b mb hb) (h.fork z b mz mb hz hb ho)
  · intro x c hc ho
    by_cases hxn : x = n
    · subst hxn
      rw [heff.keeps.forked]
      exact h.forked _ c hc ho
    · rw [hothers.cow (by simpa using hxn)]
      exact h.forked x c hc ho
  · intro x y cx cy hx hy hne
    have hslots := h.apart x y cx cy hx hy hne
    by_cases hxn : x = n
    · subst hxn
      have hyn : y ≠ x := by
        rintro rfl
        exact hslots rfl
      exact (hapart y (hlive y cy hy) hyn hslots.symm).symm
    · by_cases hyn : y = n
      · subst hyn
        exact hapart x (hlive x cx hx) hxn hslots
      · rw [hothers.cow (by simpa using hxn), hothers.cow (by simpa using hyn)]
        exact hslots

/-- The drop thread lets go of an `Arc`. -/
theorem Sim.free {w : World K V} {s : Plain K V} (h : Sim w s) (p : Ptr) :
    Sim (w.letGo (some p)) s :=
  ⟨wf_letGo h.wf _, h.live, h.entries, h.fits, h.version_lt, h.origin_lt, h.same, h.fork,
    h.forked, h.made_lt, h.apart⟩

/-! ## §5. Installs -/

variable [DecidableEq V]

omit [DecidableEq V] in
theorem installable_of_canInstall {w : World K V} {s : Plain K V} {a z : Nat}
    {forks : List (Nat × Nat)} (h : Sim w s) (hcan : s.CanInstall a z (forks.map Prod.snd)) :
    Installable w a z forks := by
  obtain ⟨ha, hz, hforks, hnodup⟩ := hcan
  refine ⟨(h.live a).2 ha, (h.live z).2 hz, ?_, hnodup, ?_⟩
  · intro fork hf
    obtain ⟨-, mb, -, hb, -⟩ := hforks fork.2 (List.mem_map_of_mem hf)
    exact (h.live fork.2).2 (by rw [hb]; simp)
  · intro fork hf
    exact h.covers (hforks fork.2 (List.mem_map_of_mem hf))

omit [ShardKey K] [DecidableEq V] in
theorem mem_keys_of_get {s : Plain K V} {n : Nat} {k : K} (h : s.get n k ≠ none) :
    k ∈ s.keys n := by
  unfold Plain.get at h
  unfold Plain.keys
  cases hn : s.maps.lookup n with
  | none => rw [hn] at h; exact absurd rfl h
  | some m =>
    rw [hn] at h
    simp only [Option.toList_some, List.flatMap_singleton]
    exact (mem_keys_iff _ _).2 h

omit [ShardKey K] in
/-- Where no map has an entry, an install leaves none. -/
theorem threeWayFold_absent {s : Plain K V} {a z : Nat} {forks : List Nat} {k : K}
    (merge : Option (Merge V)) (ha : s.get a k = none) (hz : s.get z k = none)
    (hforks : ∀ b ∈ forks, s.get b k = none) :
    threeWayFold merge (s.get z k) (s.get a k) (forks.map fun b => s.get b k) = none := by
  rw [ha, hz]
  induction forks with
  | nil => rfl
  | cons b forks ih =>
    rw [List.map_cons, threeWayFold_cons, hforks b (by simp), threeWay_unchanged]
    exact ih (fun b' hb' => hforks b' (by simp [hb']))

omit [ShardKey K] in
/-- The merged map holds the merge of every key. -/
theorem lookup_merged (s : Plain K V) (a z : Nat) (forks : List Nat) (merge : Option (Merge V))
    (k : K) :
    (AList.ofKeys (s.keys a ++ s.keys z ++ forks.flatMap s.keys) fun k =>
      threeWayFold merge (s.get z k) (s.get a k) (forks.map fun b => s.get b k)).lookup k
      = threeWayFold merge (s.get z k) (s.get a k) (forks.map fun b => s.get b k) := by
  rw [AList.lookup_ofKeys]
  split_ifs with hk
  · rfl
  · simp only [List.mem_append, List.mem_flatMap, not_or, not_exists, not_and] at hk
    obtain ⟨⟨ha, hz⟩, hforks⟩ := hk
    refine (threeWayFold_absent merge ?_ ?_ ?_).symm
    · by_contra hne
      exact ha (mem_keys_of_get hne)
    · by_contra hne
      exact hz (mem_keys_of_get hne)
    · intro b hb
      by_contra hne
      exact hforks b hb (mem_keys_of_get hne)

/-- What the entries of a slot are merged to, in terms of the plain maps. -/
theorem threeWayFold_slot {w : World K V} {s : Plain K V} {a z : Nat} {forks : List (Nat × Nat)}
    (h : Sim w s) (hinst : Installable w a z forks) (merge : Option (Merge V)) {i : Nat}
    (hi : i < 2 ^ 32) (k : K) :
    threeWayFold merge (w.entryAt z i k) (w.entryAt a i k)
      ((w.forksAt forks i).map fun e => e.2 k) =
    if slotOf k = i then threeWayFold merge (s.get z k) (s.get a k)
      ((forks.map Prod.snd).map fun b => s.get b k) else none := by
  have hforks : ((w.forksAt forks i).map fun e => e.2 k)
      = (forks.map Prod.snd).map fun b => if slotOf k = i then s.get b k else none := by
    unfold forksAt
    rw [List.map_map, List.map_map]
    refine List.map_congr_left ?_
    intro fork hf
    exact h.entries fork.2 (hinst.live fork hf) i hi k
  rw [hforks]
  unfold entryAt
  rw [h.entries z hinst.live_z i hi k, h.entries a hinst.live_a i hi k]
  split_ifs with hk
  · rfl
  · have habs : ∀ l : List Nat, threeWayFold merge (none : Option V) none
        (l.map fun _ => (none : Option V)) = none := by
      intro l
      induction l with
      | nil => rfl
      | cons b l ih =>
        rw [List.map_cons, threeWayFold_cons, threeWay_unchanged]
        exact ih
    exact habs _

/-- **An install is the plain three-way merge.** -/
theorem Sim.install {w w' : World K V} {s s' : Plain K V} {a z : Nat}
    {merge : Option (Merge V)} (h : Sim w s) (forks : List (Nat × Nat))
    (hs : s.install a z (forks.map Prod.snd) merge = some s')
    (hinst : Installable w a z forks → ∃ conflicted,
      InstalledAll w w' merge a z forks conflicted) :
    Sim w' s' := by
  unfold Plain.install at hs
  split_ifs at hs with hcan
  obtain ⟨s₁, hwrite, rfl⟩ := Option.map_eq_some_iff.1 hs
  obtain ⟨m, ha, rfl⟩ := Option.map_eq_some_iff.1 hwrite
  have hable := installable_of_canInstall h hcan
  obtain ⟨_, hall⟩ := hinst hable
  have haf : a ∉ forks.map Prod.snd := by
    have hnodup := hcan.2.2.2
    simp only [List.nodup_cons, List.mem_cons, not_or] at hnodup
    exact hnodup.1.2
  refine h.rewrite { m with
      entries := AList.ofKeys (s.keys a ++ s.keys z ++ (forks.map Prod.snd).flatMap s.keys) fun k =>
        threeWayFold merge (s.get z k) (s.get a k) ((forks.map Prod.snd).map fun b => s.get b k)
      version := s.clock } (forks.map Prod.snd) ha (fun x => ?_) rfl rfl rfl rfl hall.wf
    hall.others hall.live ?_ hall.forked hall.grows ?_ ?_
  · rw [lookup_foldl_erase, lookup_insert_ite]
    by_cases hx : x = a
    · subst hx
      simp [haf]
    · simp [hx]
  · intro b hb _
    obtain ⟨fork, hf, rfl⟩ := List.mem_map.1 hb
    exact hall.gone fork hf
  · intro i hi k
    rw [lookup_merged]
    exact (hall.lookup i hi k).trans (threeWayFold_slot h hable merge hi k)
  · intro k hk
    rw [lookup_merged] at hk
    by_contra hfit
    have hnone : ∀ n, s.get n k = none := by
      intro n
      by_contra hne
      exact hfit (h.fits n k hne)
    exact hk (threeWayFold_absent merge (hnone a) (hnone z) (fun b _ => hnone b))

omit [ShardKey K] in
/-- One install is the install of one fork. -/
theorem Installed.all {w w' : World K V} {merge : Option (Merge V)} {a z b : Nat} {c : Bool}
    (hable : Installable w a z [(0, b)]) (h : Installed w w' merge a z b c) :
    InstalledAll w w' merge a z [(0, b)] (if c then [0] else []) := by
  have hnil : InstalledAll w' w' merge a z [] [] := by
    refine ⟨h.wf, Others.refl _, h.live, by simp, rfl, Grows.refl, fun _ _ _ => rfl, ?_⟩
    simp [forksAt, Clashes]
  have hcons := InstalledAll.cons (0, b) hable h hnil
  simpa using hcons

/-! ## §6. Runs -/

omit [DecidableEq V] in
/-- Every entry rewritten where it is. -/
theorem Sim.writeAll {w w' : World K V} {s s' : Plain K V} {n : Nat} {f : K → V → Option V}
    (h : Sim w s) (hs : s.write n (AList.filterMapEntries f) = some s')
    (heff : w.Live n → Effect w w' n fun _ k o => o.bind (f k)) : Sim w' s' := by
  refine h.write hs heff ?_ ?_
  · intro m i _ k
    rw [AList.lookup_filterMapEntries]
    split_ifs <;> rfl
  · intro m hm k hk
    rw [AList.lookup_filterMapEntries] at hk
    exact hm k (fun hnone => hk (by rw [hnone]; rfl))

/-- **One operation.** -/
theorem sim_step {w : World K V} {s s' : Plain K V} (h : Sim w s) (op : Op K V)
    (hs : s.step op = some s') : Sim (w.step op) s' := by
  cases op with
  | new n =>
    simp only [Plain.step] at hs
    split_ifs at hs
    cases hs
    exact h.new
  | insert n key value =>
    refine h.writeKey (g := fun _ => some value) hs
      (fun hn hfit => insert_effect h.wf hn key value hfit) ?_
    intro m k
    exact lookup_insert_ite m key k value
  | remove n key =>
    refine h.writeKey (g := fun _ => none) hs
      (fun hn hfit => remove_effect h.wf hn key hfit) ?_
    intro m k
    exact lookup_erase_ite m key k
  | getMut n key f =>
    refine h.writeKey (g := fun o => o.map f) hs
      (fun hn hfit => getMut_effect h.wf hn key f hfit) ?_
    intro m k
    rw [lookup_putValue]
    split_ifs with hk
    · rw [hk]
    · rfl
  | entry n key f =>
    refine h.writeKey (g := f) hs (fun hn hfit => entry_effect h.wf hn key f hfit) ?_
    intro m k
    rw [lookup_putValue]
    split_ifs with hk
    · rw [hk]
    · rfl
  | retain n keep =>
    exact h.writeAll hs fun hn => retain_effect h.wf hn keep
  | iterMut n f =>
    exact h.writeAll hs fun hn => iterMut_effect h.wf hn f
  | clear n =>
    show Sim (w.clear n) s'
    have hs : s.write n (fun _ => ∅) = some s' := hs
    refine h.write hs (fun hn => clear_effect h.wf hn) ?_ ?_
    · intro m i _ k
      simp
    · intro m _ k hk
      exact absurd rfl hk
  | clone n m =>
    exact h.copy hs rfl rfl (fun _ => rfl) (fun _ => rfl) (fun _ => .inl rfl)
      (fun p hp ho => h.forked n p hp ho) (fun _ => rfl)
  | fork n m =>
    exact h.copy hs rfl rfl (fun _ => rfl) (fun _ => rfl) (fun _ => .inr rfl)
      (fun _ _ _ => rfl) (fun _ => rfl)
  | installWith a z b merge =>
    refine h.install [(0, b)] hs (fun hable => ?_)
    have hnodup := hable.nodup
    simp only [List.map_cons, List.map_nil, List.nodup_cons, List.mem_cons, List.not_mem_nil,
      or_false, not_or] at hnodup
    exact ⟨_, Installed.all hable (installWith_spec h.wf hable.live_a hable.live_z
      (hable.live (0, b) (by simp)) hnodup.1.2 (Ne.symm hnodup.1.1) hnodup.2.1
      (hable.covers (0, b) (by simp)) merge)⟩
  | installAll a z forks merge =>
    exact h.install forks hs (fun hable => ⟨_, installAll_spec h.wf merge hable⟩)
  | flatten n =>
    simp only [Plain.step] at hs
    split_ifs at hs with hn
    cases hs
    exact h.flatten ((h.live n).2 (Option.isSome_iff_ne_none.1 hn))
  | drop n =>
    simp only [Plain.step] at hs
    split_ifs at hs
    cases hs
    exact h.drop n
  | free p =>
    simp only [Plain.step] at hs
    cases hs
    exact h.free p

/-- A run from any state. -/
theorem sim_steps (ops : List (Op K V)) : ∀ {w : World K V} {s s' : Plain K V}, Sim w s →
    ops.foldlM Plain.step s = some s' → Sim (ops.foldl World.step w) s' := by
  induction ops with
  | nil =>
    intro w s s' h hs
    cases hs
    exact h
  | cons op ops ih =>
    intro w s s' h hs
    rw [List.foldlM_cons] at hs
    obtain ⟨s₁, hstep, hrest⟩ := Option.bind_eq_some_iff.1 hs
    rw [List.foldl_cons]
    exact ih (sim_step h op hstep) hrest

/-- **Every run.** -/
theorem sim_run (ops : List (Op K V)) (s : Plain K V) (h : Plain.run ops = some s) :
    Sim (World.run ops) s :=
  sim_steps ops sim_init h

end GluaLs.Cow
