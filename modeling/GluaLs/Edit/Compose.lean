/-
  GluaLs.Edit.Compose — two edits in a row.

  `then` walks the kept stretches of two maps side by side and keeps what both keep.  The
  walk is followed step by step: whichever stretch ends first in the middle text is dropped,
  and what it shared with the other side has been pushed.  Main results:

    • `intersect_spec` — the walk pushes stretches in order that keep exactly what the first
      list and then the second keep,
    • `thenLater_spec`, `map_thenLater` — the composed map,
    • `thenLater_laws` — **composition of edits is a category**: the composed map maps every
      offset stepwise, is well-formed, associative and unital, and reverses under inverses.

  The last stretch of a map is OPEN: it runs for `u32::MAX` bytes, and the walk clips it at
  offset `u32::MAX` of the middle text.  A middle text of that very length would lose its
  last stretch, so the middle text is taken to be shorter.
-/
import GluaLs.Edit.Kept

namespace GluaLs.Edit

open Shared

open PositionMap (intersect)

/-! ## §1. One step of the walk -/

/-- What the stretches `s` and `t` have in common in the middle text, as the loop pushes it. -/
def common (s t : Stretch) : List Stretch :=
  let start := max s.new t.old
  let stop := min (saturatingAdd s.new s.len) (saturatingAdd t.old t.len)
  if start < stop then
    [⟨u32 (s.old + (start - s.new)), u32 (t.new + (start - t.old)), stop - start⟩]
  else []

theorem intersect_first (s t : Stretch) (first second : List Stretch)
    (h : saturatingAdd s.new s.len ≤ saturatingAdd t.old t.len) :
    intersect (s :: first) (t :: second) = common s t ++ intersect first (t :: second) := by
  rw [intersect]
  exact if_pos h

theorem intersect_second (s t : Stretch) (first second : List Stretch)
    (h : saturatingAdd t.old t.len < saturatingAdd s.new s.len) :
    intersect (s :: first) (t :: second) = common s t ++ intersect (s :: first) second := by
  rw [intersect]
  exact if_neg (by omega)

theorem common_of_lt (s t : Stretch) (start stop o n : Nat) (hstart : max s.new t.old = start)
    (hstop : min (saturatingAdd s.new s.len) (saturatingAdd t.old t.len) = stop)
    (hlt : start < stop) (ho : s.old + (start - s.new) = o) (hn : t.new + (start - t.old) = n)
    (ho' : o < U32_SIZE) (hn' : n < U32_SIZE) : common s t = [⟨o, n, stop - start⟩] := by
  unfold common
  simp only [hstart, hstop, ho, hn]
  rw [if_pos hlt, u32_of_lt o ho', u32_of_lt n hn']

theorem common_of_le (s t : Stretch)
    (h : min (saturatingAdd s.new s.len) (saturatingAdd t.old t.len) ≤ max s.new t.old) :
    common s t = [] := if_neg (by omega)

/-- What the stretches `ks` keep is what `first` and then `second` keep, and they are in
    order behind the point where the heads `s` and `t` can first meet. -/
structure Meets (a c : Nat) (s : Stretch) (first : List Stretch) (t : Stretch)
    (second ks : List Stretch) : Prop where
  shared : Shared a c (s.old + min (t.old - s.new) s.len) (t.new + min (s.new - t.old) t.len) ks
  image : ∀ p, keptImage ks p = (keptImage (s :: first) p).bind (keptImage (t :: second))

theorem Shared.ne_nil (a b o n : Nat) (ks : List Stretch) (h : Shared a b o n ks) : ks ≠ [] := by
  intro hnil
  rw [hnil] at h
  exact h

/-- No image of stretches that come after `n` lies before it. -/
theorem keptImage_ge (a b : Nat) (ks : List Stretch) :
    ∀ (o n p q : Nat), Shared a b o n ks → keptImage ks p = some q → n ≤ q := by
  induction ks with
  | nil => intro o n p q h; exact h.elim
  | cons s rest ih =>
    intro o n p q hsh hq
    have hhead := head a b o n s rest hsh
    by_cases h1 : p < s.old
    · rw [keptImage_before s rest p h1] at hq
      cases hq
    · cases rest with
      | nil =>
        rw [keptImage_last s p (by omega)] at hq
        have : p - s.old + s.new = q := Option.some.inj hq
        omega
      | cons t rest =>
        by_cases h2 : p < s.old + s.len
        · rw [keptImage_inside s _ p (by omega) h2] at hq
          have : p - s.old + s.new = q := Option.some.inj hq
          omega
        · rw [keptImage_behind s t rest p (by omega)] at hq
          have := ih (s.old + s.len) (s.new + s.len) p q hsh.2.2.2 hq
          omega

/-- The end of a stretch that is not the last does not saturate. -/
theorem end_of_cons (a b o n : Nat) (s s' : Stretch) (rest : List Stretch)
    (hsh : Shared a b o n (s :: s' :: rest)) :
    s.old + s.len ≤ s'.old ∧ s.new + s.len ≤ s'.new ∧ s'.old ≤ a ∧ s'.new ≤ b ∧ 0 < s.len := by
  obtain ⟨_, _, hlen, hrest⟩ := hsh
  have hge := head a b (s.old + s.len) (s.new + s.len) s' rest hrest
  have hle := head_le a b rest (s.old + s.len) (s.new + s.len) s' hrest
  exact ⟨hge.1, hge.2, hle.1, hle.2, hlen⟩

/-- Up to where the head `t` ends, the second list keeps what `t` keeps. -/
theorem keptImage_head (b c m n x : Nat) (t : Stretch) (second : List Stretch) (hb : b < OPEN)
    (hsh : Shared b c m n (t :: second)) (hop : OpenEnded (t :: second))
    (hx : x < saturatingAdd t.old t.len) (ht : t.old ≤ x) :
    keptImage (t :: second) x = some (x - t.old + t.new) ∧ (x ≤ b → t.new + (x - t.old) ≤ c) := by
  cases second with
  | nil =>
    obtain ⟨_, _, hob, hnc, hgap⟩ := hsh
    exact ⟨keptImage_last t x ht, fun hxb => by omega⟩
  | cons t' rest =>
    obtain ⟨h1, h2, h3, h4, hlen⟩ := end_of_cons b c m n t t' rest hsh
    rw [saturatingAdd_of_lt _ _ (by omega)] at hx
    exact ⟨keptImage_inside t _ x ht hx, fun _ => by omega⟩

/-- The same for the first list, whose offsets in the middle text are images. -/
theorem offset_head (a b o m x : Nat) (s : Stretch) (first : List Stretch) (hb : b < OPEN)
    (hsh : Shared a b o m (s :: first)) (hx : x < saturatingAdd s.new s.len) (hs : s.new ≤ x)
    (hxb : x ≤ b) : s.old + (x - s.new) ≤ a := by
  cases first with
  | nil =>
    obtain ⟨_, _, hoa, hnb, hgap⟩ := hsh
    omega
  | cons s' rest =>
    obtain ⟨h1, h2, h3, h4, hlen⟩ := end_of_cons a b o m s s' rest hsh
    rw [saturatingAdd_of_lt _ _ (by omega)] at hx
    omega

/-- Up to where its head `s` ends in the middle text, the first list keeps what `s` keeps;
    past it, every image lies past it too. -/
theorem keptImage_middle (a b o m p : Nat) (s : Stretch) (first : List Stretch) (hb : b < OPEN)
    (hsh : Shared a b o m (s :: first)) (hp : s.old ≤ p) :
    keptImage (s :: first) p = some (p - s.old + s.new)
      ∨ (saturatingAdd s.new s.len ≤ p - s.old + s.new
        ∧ ∀ q, keptImage (s :: first) p = some q → saturatingAdd s.new s.len ≤ q) := by
  cases first with
  | nil => exact .inl (keptImage_last s p hp)
  | cons s' rest =>
    obtain ⟨h1, h2, h3, h4, hlen⟩ := end_of_cons a b o m s s' rest hsh
    rw [saturatingAdd_of_lt _ _ (by omega)]
    by_cases hin : p < s.old + s.len
    · exact .inl (keptImage_inside s _ p hp hin)
    · right
      refine ⟨by omega, ?_⟩
      intro q hq
      rw [keptImage_behind s s' rest p (by omega)] at hq
      exact keptImage_ge a b (s' :: rest) _ _ p q hsh.2.2.2 hq

section

variable (a b c : Nat)

/-- Behind `stop`, where the first of the heads `s` and `t` ends, `ks` go on: what the heads
    have in common stands before them. -/
theorem common_cons (o n stop : Nat) (s t : Stretch) (ks : List Stretch) (hks : Shared a c o n ks)
    (hstop : min (saturatingAdd s.new s.len) (saturatingAdd t.old t.len) = stop)
    (hlt : max s.new t.old < stop) (ha : s.old + (t.old - s.new) < U32_SIZE)
    (hc : t.new + (s.new - t.old) < U32_SIZE) (ho : s.old + (stop - s.new) ≤ o)
    (hn : t.new + (stop - t.old) ≤ n) :
    Shared a c (s.old + min (t.old - s.new) s.len) (t.new + min (s.new - t.old) t.len)
        (common s t ++ ks)
      ∧ (∀ p, s.old ≤ p → t.old ≤ p - s.old + s.new → p - s.old + s.new < stop →
        keptImage (common s t ++ ks) p = some (p - s.old + s.new - t.old + t.new))
      ∧ ∀ p, s.old + (stop - s.new) ≤ p → keptImage (common s t ++ ks) p = keptImage ks p := by
  have hne := ne_nil a c _ _ ks hks
  obtain ⟨k, ks', hcons⟩ := List.exists_cons_of_ne_nil hne
  have hcommon : common s t = [⟨s.old + (t.old - s.new), t.new + (s.new - t.old),
      stop - max s.new t.old⟩] :=
    common_of_lt s t _ stop _ _ rfl hstop hlt (by omega) (by omega) ha hc
  rw [hcommon]
  refine ⟨?_, ?_, ?_⟩
  · apply cons a c _ _ _ ks hne
    · show s.old + min (t.old - s.new) s.len ≤ s.old + (t.old - s.new)
      omega
    · show t.new + min (s.new - t.old) t.len ≤ t.new + (s.new - t.old)
      omega
    · show 0 < stop - max s.new t.old
      omega
    · apply mono a c _ _ _ _ ks hks
      · show s.old + (t.old - s.new) + (stop - max s.new t.old) ≤ _
        omega
      · show t.new + (s.new - t.old) + (stop - max s.new t.old) ≤ _
        omega
  · intro p hp hq hq'
    show keptImage (_ :: ks) p = _
    rw [keptImage_inside _ ks p]
    · congr 1
      show p - (s.old + (t.old - s.new)) + (t.new + (s.new - t.old)) = _
      omega
    · show s.old + (t.old - s.new) ≤ p
      omega
    · show p < s.old + (t.old - s.new) + (stop - max s.new t.old)
      omega
  · intro p hp
    rw [hcons]
    apply keptImage_behind
    show s.old + (t.old - s.new) + (stop - max s.new t.old) ≤ p
    omega

/-- **Both heads are the last**: they meet in one open stretch. -/
theorem meets_last (o m m' n : Nat) (s t : Stretch) (ha : a < U32_SIZE) (hb : b < OPEN)
    (hc : c < U32_SIZE) (hF : Shared a b o m [s]) (hS : Shared b c m' n [t])
    (hs : s.len = OPEN) (ht : t.len = OPEN) : Meets a c s [] t [] (common s t) := by
  obtain ⟨_, _, hoa, hnb, hgap⟩ := hF
  obtain ⟨_, _, hob, hnc, hgap'⟩ := hS
  have hcommon : common s t = [⟨s.old + (t.old - s.new), t.new + (s.new - t.old),
      OPEN - max s.new t.old⟩] := by
    apply common_of_lt s t (max s.new t.old) OPEN _ _ rfl
    · rw [hs, ht, saturatingAdd_open, saturatingAdd_open, Nat.min_self]
    · omega
    · omega
    · omega
    · omega
    · omega
  rw [hcommon]
  constructor
  · show _ ∧ _ ∧ s.old + (t.old - s.new) ≤ a ∧ t.new + (s.new - t.old) ≤ c
      ∧ a - (s.old + (t.old - s.new)) = c - (t.new + (s.new - t.old))
    refine ⟨?_, ?_, by omega, by omega, by omega⟩
    · show s.old + min (t.old - s.new) s.len ≤ s.old + (t.old - s.new)
      omega
    · show t.new + min (s.new - t.old) t.len ≤ t.new + (s.new - t.old)
      omega
  · intro p
    by_cases h1 : p < s.old
    · rw [keptImage_before s [] p h1]
      apply keptImage_before
      show p < s.old + (t.old - s.new)
      omega
    · rw [keptImage_last s p (by omega), Option.bind_some]
      by_cases h2 : p - s.old + s.new < t.old
      · rw [keptImage_before t [] _ h2]
        apply keptImage_before
        show p < s.old + (t.old - s.new)
        omega
      · rw [keptImage_last t _ (by omega),
          keptImage_last _ p (by show s.old + (t.old - s.new) ≤ p; omega)]
        congr 1
        show p - (s.old + (t.old - s.new)) + (t.new + (s.new - t.old)) = _
        omega

/-- **The first list's head ends first.** -/
theorem meets_first (o m m' n : Nat) (s s' t : Stretch) (first second ks : List Stretch)
    (ha : a < U32_SIZE) (hb : b < OPEN) (hc : c < U32_SIZE)
    (hF : Shared a b o m (s :: s' :: first)) (hS : Shared b c m' n (t :: second))
    (hop : OpenEnded (t :: second)) (hle : saturatingAdd s.new s.len ≤ saturatingAdd t.old t.len)
    (hks : Meets a c s' first t second ks) :
    Meets a c s (s' :: first) t second (common s t ++ ks) := by
  obtain ⟨h1, h2, h3, h4, hlen⟩ := end_of_cons a b o m s s' first hF
  have hend : saturatingAdd s.new s.len = s.new + s.len := saturatingAdd_of_lt _ _ (by omega)
  rw [hend] at hle
  have htlen : t.len ≥ saturatingAdd t.old t.len - t.old := by
    have : saturatingAdd t.old t.len ≤ t.old + t.len := Nat.min_le_left _ _
    omega
  -- the heads share the middle text from `max s.new t.old` to the end of `s`
  by_cases hlt : max s.new t.old < s.new + s.len
  · have hmeet := keptImage_head b c m' n (max s.new t.old) t second hb hS hop (by omega) (by omega)
    obtain ⟨hshared, hinside, hbehind⟩ := common_cons a c _ _ (s.new + s.len) s t ks hks.shared
      (by rw [hend]; exact Nat.min_eq_left hle) hlt (by omega) (by omega) (by omega) (by omega)
    refine ⟨hshared, ?_⟩
    intro p
    by_cases hp1 : p < s.old
    · rw [keptImage_before s _ p hp1]
      exact keptImage_lt a c _ _ p _ hshared (by omega)
    · by_cases hp2 : p < s.old + s.len
      · rw [keptImage_inside s _ p (by omega) hp2, Option.bind_some]
        by_cases hq : p - s.old + s.new < t.old
        · rw [keptImage_before t _ _ hq]
          exact keptImage_lt a c _ _ p _ hshared (by omega)
        · rw [(keptImage_head b c m' n (p - s.old + s.new) t second hb hS hop (by omega)
            (by omega)).1]
          exact hinside p (by omega) (by omega) (by omega)
      · rw [keptImage_behind s s' first p (by omega), ← hks.image p]
        exact hbehind p (by omega)
  · -- `t` starts behind `s`: nothing of `s` is kept
    have hcommon : common s t = [] := by
      apply common_of_le
      rw [hend]
      omega
    rw [hcommon, List.nil_append]
    have hshared : Shared a c (s.old + min (t.old - s.new) s.len)
        (t.new + min (s.new - t.old) t.len) ks := by
      apply mono a c _ _ _ _ ks hks.shared
      · omega
      · omega
    refine ⟨hshared, ?_⟩
    intro p
    by_cases hp1 : p < s.old
    · rw [keptImage_before s _ p hp1]
      exact keptImage_lt a c _ _ p _ hshared (by omega)
    · by_cases hp2 : p < s.old + s.len
      · rw [keptImage_inside s _ p (by omega) hp2, Option.bind_some,
          keptImage_before t _ _ (by omega)]
        exact keptImage_lt a c _ _ p _ hshared (by omega)
      · rw [keptImage_behind s s' first p (by omega)]
        exact hks.image p

/-- **The second list's head ends first.** -/
theorem meets_second (o m m' n : Nat) (s t t' : Stretch) (first second ks : List Stretch)
    (ha : a < U32_SIZE) (hb : b < OPEN) (hc : c < U32_SIZE)
    (hF : Shared a b o m (s :: first)) (hS : Shared b c m' n (t :: t' :: second))
    (hlt : saturatingAdd t.old t.len < saturatingAdd s.new s.len)
    (hks : Meets a c s first t' second ks) :
    Meets a c s first t (t' :: second) (common s t ++ ks) := by
  obtain ⟨h1, h2, h3, h4, hlen⟩ := end_of_cons b c m' n t t' second hS
  have hend : saturatingAdd t.old t.len = t.old + t.len := saturatingAdd_of_lt _ _ (by omega)
  rw [hend] at hlt
  have hslen : saturatingAdd s.new s.len ≤ s.new + s.len := Nat.min_le_left _ _
  -- behind the end of `t` the second list goes on with `t'`
  have hpast : ∀ p, (∀ q, keptImage (s :: first) p = some q → t.old + t.len ≤ q) →
      keptImage ks p = (keptImage (s :: first) p).bind (keptImage (t :: t' :: second)) := by
    intro p hq
    rw [hks.image p]
    cases himg : keptImage (s :: first) p with
    | none => rfl
    | some q =>
      rw [Option.bind_some, Option.bind_some, keptImage_behind t t' second q (hq q himg)]
  by_cases hmeet : max s.new t.old < t.old + t.len
  · have hbound := offset_head a b o m (max s.new t.old) s first hb hF (by omega) (by omega)
      (by omega)
    obtain ⟨hshared, hinside, hbehind⟩ := common_cons a c _ _ (t.old + t.len) s t ks hks.shared
      (by rw [hend]; exact Nat.min_eq_right hlt.le) hmeet (by omega) (by omega) (by omega)
      (by omega)
    refine ⟨hshared, ?_⟩
    intro p
    by_cases hp1 : p < s.old
    · rw [keptImage_before s _ p hp1]
      exact keptImage_lt a c _ _ p _ hshared (by omega)
    · by_cases hq : p - s.old + s.new < t.old + t.len
      · have himg : keptImage (s :: first) p = some (p - s.old + s.new) := by
          obtain himg | ⟨hbeyond, _⟩ := keptImage_middle a b o m p s first hb hF (by omega)
          · exact himg
          · omega
        rw [himg, Option.bind_some]
        by_cases hq' : p - s.old + s.new < t.old
        · rw [keptImage_before t _ _ hq']
          exact keptImage_lt a c _ _ p _ hshared (by omega)
        · rw [keptImage_inside t _ _ (by omega) hq]
          exact hinside p (by omega) (by omega) hq
      · rw [← hpast p]
        · exact hbehind p (by omega)
        · intro q himg
          obtain himg' | ⟨_, hbeyond⟩ := keptImage_middle a b o m p s first hb hF (by omega)
          · rw [himg'] at himg
            have : p - s.old + s.new = q := Option.some.inj himg
            omega
          · have := hbeyond q himg
            omega
  · -- `s` starts behind `t`: nothing of `t` is kept
    have hcommon : common s t = [] := by
      apply common_of_le
      rw [hend]
      omega
    rw [hcommon, List.nil_append]
    have hshared : Shared a c (s.old + min (t.old - s.new) s.len)
        (t.new + min (s.new - t.old) t.len) ks := by
      apply mono a c _ _ _ _ ks hks.shared
      · omega
      · omega
    refine ⟨hshared, ?_⟩
    intro p
    apply hpast p
    intro q himg
    have := keptImage_ge a b (s :: first) s.old s.new p q ?_ himg
    · omega
    · cases first with
      | nil => exact ⟨le_rfl, le_rfl, hF.2.2⟩
      | cons s' rest => exact ⟨le_rfl, le_rfl, hF.2.2⟩

/-! ## §2. The whole walk -/

/-- **The walk keeps exactly what both lists keep**, by induction on the stretches it has
    not passed. -/
theorem intersect_spec (ha : a < U32_SIZE) (hb : b < OPEN) (hc : c < U32_SIZE) :
    ∀ (k : Nat) (s t : Stretch) (first second : List Stretch) (o m m' n : Nat),
      first.length + second.length = k →
      Shared a b o m (s :: first) → OpenEnded (s :: first) →
      Shared b c m' n (t :: second) → OpenEnded (t :: second) →
      Meets a c s first t second (intersect (s :: first) (t :: second)) := by
  intro k
  induction k with
  | zero =>
    intro s t first second o m m' n hk hF hopF hS hopS
    have hfirst : first = [] := List.length_eq_zero_iff.1 (by omega)
    have hsecond : second = [] := List.length_eq_zero_iff.1 (by omega)
    subst hfirst hsecond
    have hs : s.len = OPEN := hopF
    have ht : t.len = OPEN := hopS
    rw [intersect_first s t [] [] (by rw [hs, ht, saturatingAdd_open, saturatingAdd_open])]
    have hnil : intersect [] [t] = [] := by rw [intersect]
    rw [hnil, List.append_nil]
    exact meets_last a b c o m m' n s t ha hb hc hF hS hs ht
  | succ k ih =>
    intro s t first second o m m' n hk hF hopF hS hopS
    by_cases hle : saturatingAdd s.new s.len ≤ saturatingAdd t.old t.len
    · rw [intersect_first s t first second hle]
      cases first with
      | nil =>
        -- an open stretch ends where the middle text does, so `t` is not the last
        exfalso
        have hs : s.len = OPEN := hopF
        cases second with
        | nil => simp at hk
        | cons t' second =>
          obtain ⟨h1, _, h3, _, _⟩ := end_of_cons b c m' n t t' second hS
          rw [hs, saturatingAdd_open, saturatingAdd_of_lt _ _ (by omega)] at hle
          omega
      | cons s' first =>
        apply meets_first a b c o m m' n s s' t first second _ ha hb hc hF hS hopS hle
        apply ih s' t first second _ _ _ _ _ hF.2.2.2 hopF hS hopS
        simp only [List.length_cons] at hk
        omega
    · rw [intersect_second s t first second (by omega)]
      cases second with
      | nil =>
        exfalso
        have ht : t.len = OPEN := hopS
        rw [ht, saturatingAdd_open] at hle
        have : saturatingAdd s.new s.len ≤ OPEN := Nat.min_le_right _ _
        omega
      | cons t' second =>
        apply meets_second a b c o m m' n s t t' first second _ ha hb hc hF hS (by omega)
        apply ih s t' first second _ _ _ _ _ hF hopF hS.2.2.2 hopS
        simp only [List.length_cons] at hk
        omega

end

/-! ## §3. The composed map -/

theorem isIdentity_iff (f : PositionMap) : f.isIdentity = true ↔ f = PositionMap.identity := by
  constructor
  · intro h
    exact PositionMap.ext (List.isEmpty_iff.1 h)
  · intro h
    rw [h]
    rfl

theorem identity_thenLater (f : PositionMap) : PositionMap.identity.thenLater f = f := if_pos rfl

theorem thenLater_identity (f : PositionMap) : f.thenLater PositionMap.identity = f := by
  unfold PositionMap.thenLater
  split_ifs with h1 h2
  · exact ((isIdentity_iff f).1 h1).symm
  · rfl
  · exact absurd rfl h2

/-- The stretches two proper edits both keep. -/
theorem thenLater_of_edits (f g : PositionMap) (hf : f.isIdentity = false)
    (hg : g.isIdentity = false) :
    f.thenLater g = PositionMap.fromKept (intersect f.kept g.kept) := by
  unfold PositionMap.thenLater
  rw [hf, hg]
  rfl

theorem le_open (n : Nat) (h : n < U32_SIZE) : n ≤ OPEN := Nat.le_of_lt_succ h

/-- **The composed map is well-formed and maps every offset stepwise.** -/
theorem thenLater_spec (f g : PositionMap) (a b c : Nat) (hf : f.WellFormed a b)
    (hg : g.WellFormed b c) (ha : a < U32_SIZE) (hb : b < OPEN) (hc : c < U32_SIZE) :
    (f.thenLater g).WellFormed a c ∧ ∀ p, (f.thenLater g).image p = (f.image p).bind g.image := by
  by_cases hfi : f.isIdentity = true
  · have hid := (isIdentity_iff f).1 hfi
    subst hid
    rw [identity_thenLater]
    have hab : a = b := by
      have h : a - 0 = b - 0 := hf.2.2
      omega
    subst hab
    exact ⟨hg, fun p => rfl⟩
  · by_cases hgi : g.isIdentity = true
    · have hid := (isIdentity_iff g).1 hgi
      subst hid
      rw [thenLater_identity]
      have hbc : b = c := by
        have h : b - 0 = c - 0 := hg.2.2
        omega
      subst hbc
      refine ⟨hf, fun p => ?_⟩
      cases f.image p with
      | none => rfl
      | some q => rfl
    · rw [thenLater_of_edits f g (Bool.not_eq_true _ ▸ hfi) (Bool.not_eq_true _ ▸ hgi)]
      have hshF := shared_kept f a b hf
      have hshG := shared_kept g b c hg
      obtain ⟨s, first, hs⟩ := List.exists_cons_of_ne_nil (ne_nil a b 0 0 _ hshF)
      obtain ⟨t, second, ht⟩ := List.exists_cons_of_ne_nil (ne_nil b c 0 0 _ hshG)
      have hopF := openEnded_kept f a b hf
      have hopG := openEnded_kept g b c hg
      rw [hs] at hshF hopF
      rw [ht] at hshG hopG
      have hmeets := intersect_spec a b c ha hb hc _ s t first second 0 0 0 0 rfl hshF hopF
        hshG hopG
      rw [← hs, ← ht] at hmeets
      have hsh : Shared a c 0 0 (intersect f.kept g.kept) :=
        mono a c _ _ 0 0 _ hmeets.shared (Nat.zero_le _) (Nat.zero_le _)
      refine ⟨wellFormed_fromKept a c (le_open a ha) (le_open c hc) _ hsh, ?_⟩
      intro p
      rw [image_fromKept a c (le_open a ha) (le_open c hc) _ hsh p, hmeets.image p, ← hs, ← ht,
        keptImage_kept f a b hf p]
      cases f.image p with
      | none => rfl
      | some q => exact keptImage_kept g b c hg q

/-- No `u32` overflows while `p` is mapped by `f` and its image by `g`. -/
def NoOverflow (f g : PositionMap) (p : Nat) : Prop :=
  p < U32_SIZE ∧ ∀ q, f.image p = some q →
    q < U32_SIZE ∧ ∀ r, g.image q = some r → r < U32_SIZE

theorem map_thenLater (f g : PositionMap) (a b c p : Nat) (hf : f.WellFormed a b)
    (hg : g.WellFormed b c) (ha : a < U32_SIZE) (hb : b < OPEN) (hc : c < U32_SIZE)
    (hp : NoOverflow f g p) : (f.thenLater g).map p = (f.map p).bind g.map := by
  obtain ⟨hwf, himg⟩ := thenLater_spec f g a b c hf hg ha hb hc
  obtain ⟨hp32, hq32⟩ := hp
  rw [map_eq_image_of_fits f a b hf p hp32 (fun q hq => (hq32 q hq).1)]
  cases hq : f.image p with
  | none =>
    rw [map_eq_image _ a c hwf p hp32, himg p, hq]
    rfl
  | some q =>
    have hg32 := hq32 q hq
    rw [Option.bind_some, map_eq_image_of_fits g b c hg q hg32.1 hg32.2,
      map_eq_image_of_fits _ a c hwf p hp32, himg p, hq]
    · rfl
    · intro r hr
      rw [himg p, hq] at hr
      exact hg32.2 r hr

/-- **Composition is associative**, as hunk lists: both sides have the same images. -/
theorem thenLater_assoc (f g h : PositionMap) (a b c d : Nat) (hf : f.WellFormed a b)
    (hg : g.WellFormed b c) (hh : h.WellFormed c d) (ha : a < U32_SIZE) (hb : b < OPEN)
    (hc : c < OPEN) (hd : d < U32_SIZE) :
    (f.thenLater g).thenLater h = f.thenLater (g.thenLater h) := by
  have hc32 : c < U32_SIZE := lt_trans hc (Nat.lt_succ_self OPEN)
  have hb32 : b < U32_SIZE := lt_trans hb (Nat.lt_succ_self OPEN)
  obtain ⟨hfg, himgfg⟩ := thenLater_spec f g a b c hf hg ha hb hc32
  obtain ⟨hgh, himggh⟩ := thenLater_spec g h b c d hg hh hb32 hc hd
  obtain ⟨hleft, himgleft⟩ := thenLater_spec (f.thenLater g) h a c d hfg hh ha hc hd
  obtain ⟨hright, himgright⟩ := thenLater_spec f (g.thenLater h) a b d hf hgh ha hb hd
  apply hunks_of_image _ _ a d a d hleft hright
  intro p
  rw [himgleft p, himgfg p, himgright p, Option.bind_assoc]
  cases f.image p with
  | none => rfl
  | some q => exact (himggh q).symm

/-- **The inverse of a composition composes the inverses**, the other way round. -/
theorem inverse_thenLater (f g : PositionMap) (a b c : Nat) (hf : f.WellFormed a b)
    (hg : g.WellFormed b c) (ha : a < U32_SIZE) (hb : b < OPEN) (hc : c < U32_SIZE) :
    (f.thenLater g).inverse = g.inverse.thenLater f.inverse := by
  obtain ⟨hfg, himg⟩ := thenLater_spec f g a b c hf hg ha hb hc
  have hfi := wellFormed_inverse f a b hf
  have hgi := wellFormed_inverse g b c hg
  obtain ⟨hinv, himginv⟩ := thenLater_spec g.inverse f.inverse c b a hgi hfi hc hb ha
  apply hunks_of_image _ _ c a c a (wellFormed_inverse _ a c hfg) hinv
  intro r
  -- both sides take `r` back to the `p` that reaches it through some middle offset `q`
  ext p
  rw [← image_inverse_iff _ a c hfg, himg p, himginv r, Option.bind_eq_some_iff,
    Option.bind_eq_some_iff]
  constructor
  · rintro ⟨q, hq, hr⟩
    exact ⟨q, (image_inverse_iff g b c hg q r).1 hr, (image_inverse_iff f a b hf p q).1 hq⟩
  · rintro ⟨q, hr, hq⟩
    exact ⟨q, (image_inverse_iff f a b hf p q).2 hq, (image_inverse_iff g b c hg q r).2 hr⟩

/-- **Edits compose.**  For well-formed maps `f`, from a text of `a` bytes to one of `b`,
    and `g`, from there to one of `c` bytes: the composed map maps every offset stepwise, is
    well-formed, composition is associative with `identity` as its unit, and the inverse of
    a composition is the composition of the inverses. -/
theorem thenLater_laws (f g : PositionMap) (a b c : Nat) (hf : f.WellFormed a b)
    (hg : g.WellFormed b c) (ha : a < U32_SIZE) (hb : b < OPEN) (hc : c < U32_SIZE) :
    (∀ p, NoOverflow f g p → (f.thenLater g).map p = (f.map p).bind g.map)
      ∧ (f.thenLater g).WellFormed a c
      ∧ (∀ (h : PositionMap) (d : Nat), h.WellFormed c d → c < OPEN → d < U32_SIZE →
          (f.thenLater g).thenLater h = f.thenLater (g.thenLater h))
      ∧ PositionMap.identity.thenLater f = f ∧ f.thenLater PositionMap.identity = f
      ∧ (f.thenLater g).inverse = g.inverse.thenLater f.inverse := by
  refine ⟨?_, ?_, ?_, ?_, ?_, ?_⟩
  · intro p hp
    exact map_thenLater f g a b c p hf hg ha hb hc hp
  · exact (thenLater_spec f g a b c hf hg ha hb hc).1
  · intro h d hh hc' hd
    exact thenLater_assoc f g h a b c d hf hg hh ha hb hc' hd
  · exact identity_thenLater f
  · exact thenLater_identity f
  · exact inverse_thenLater f g a b c hf hg ha hb hc

/-- "abcdef" to "abcXXdef", then the deletion of "XX" and the insertion of "Y" before "f":
    the first insertion cancels, so one insertion is left. -/
theorem thenLater_laws_insert_delete :
    (PositionMap.thenLater ⟨[⟨3, 3, 3, 5⟩]⟩ ⟨[⟨3, 5, 3, 3⟩, ⟨7, 7, 5, 6⟩]⟩).WellFormed 6 7
      ∧ (PositionMap.thenLater ⟨[⟨3, 3, 3, 5⟩]⟩ ⟨[⟨3, 5, 3, 3⟩, ⟨7, 7, 5, 6⟩]⟩).inverse
        = PositionMap.thenLater ⟨[⟨3, 3, 3, 5⟩, ⟨5, 6, 7, 7⟩]⟩ ⟨[⟨3, 5, 3, 3⟩]⟩ := by
  have hf : PositionMap.WellFormed ⟨[⟨3, 3, 3, 5⟩]⟩ 6 8 := by
    refine ⟨by decide, by decide, rfl, ⟨by decide, by decide, .inr (by decide)⟩, ?_⟩
    exact ⟨by decide, by decide, rfl⟩
  have hg : PositionMap.WellFormed ⟨[⟨3, 5, 3, 3⟩, ⟨7, 7, 5, 6⟩]⟩ 8 7 := by
    refine ⟨by decide, by decide, rfl, ⟨by decide, by decide, .inl (by decide)⟩, ?_⟩
    refine ⟨by decide, by decide, rfl, ⟨by decide, by decide, .inr (by decide)⟩, ?_⟩
    exact ⟨by decide, by decide, rfl⟩
  have hlaws := thenLater_laws ⟨[⟨3, 3, 3, 5⟩]⟩ ⟨[⟨3, 5, 3, 3⟩, ⟨7, 7, 5, 6⟩]⟩ 6 8 7 hf hg
    (by decide) (by decide) (by decide)
  exact ⟨hlaws.2.1, hlaws.2.2.2.2.2⟩

/-- **Undone and redone, an edit is itself**, hunk for hunk. -/
theorem undo_redo (f : PositionMap) (a b : Nat) (hf : f.WellFormed a b) (ha : a < OPEN)
    (hb : b < OPEN) : (f.thenLater f.inverse).thenLater f = f := by
  have ha' : a < U32_SIZE := lt_trans ha (Nat.lt_succ_self OPEN)
  have hb' : b < U32_SIZE := lt_trans hb (Nat.lt_succ_self OPEN)
  obtain ⟨hundone, himg⟩ :=
    thenLater_spec f f.inverse a b a hf (wellFormed_inverse f a b hf) ha' hb ha'
  obtain ⟨hredone, himg'⟩ := thenLater_spec _ f a a b hundone hf ha' ha hb'
  refine hunks_of_image _ f a b a b hredone hf fun p => ?_
  rw [himg', himg]
  cases hp : f.image p with
  | none => rfl
  | some q =>
    rw [Option.bind_some, (image_inverse_iff f a b hf p q).1 hp]
    exact hp

theorem undo_redo_insertion : PositionMap.thenLater
    (PositionMap.thenLater ⟨[⟨3, 3, 3, 5⟩]⟩ ⟨[⟨3, 5, 3, 3⟩]⟩) ⟨[⟨3, 3, 3, 5⟩]⟩ =
      ⟨[⟨3, 3, 3, 5⟩]⟩ :=
  undo_redo ⟨[⟨3, 3, 3, 5⟩]⟩ 6 8
    ⟨by decide, by decide, rfl, ⟨by decide, by decide, .inr (by decide)⟩, by decide, by decide, rfl⟩
    (by decide) (by decide)

end GluaLs.Edit
