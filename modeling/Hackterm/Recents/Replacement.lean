import Hackterm.Recents.Update

/-! # The list after an accepted connection

An accepted connection should come in front of the stored ones of other hosts, in their
order, with at most ten in all (`Hackterm.replacedConnections`). The loop that takes a
known host out copies one place only, so this holds for a host that is new or among the
last ones, and for no other (`Hackterm.updateConnections_replaces_iff`).
-/

namespace Hackterm

/-- The new connection and the stored ones of other hosts, at most ten. -/
def replacedConnections (connection : RecentConnection) (stored : List RecentConnection) :
    List RecentConnection :=
  (connection :: stored.filter fun other => other.hostname ≠ connection.hostname).take
    recentConnections

/-- The arrays hold the stored connections, each of a host of its own, and behind them
places without a host. -/
structure ConnectionArrays (stored spare : List RecentConnection) : Prop where
  full : (stored ++ spare).length = recentConnections
  used : ∀ connection ∈ stored, connection.hostname ≠ []
  distinct : (stored.map RecentConnection.hostname).Nodup
  cleared : ∀ connection ∈ spare, connection.hostname = []

/-- What is passed to `writeall_connections` is the list that should be kept, and behind
it places without a host. -/
def ReplacesConnections (connection : RecentConnection) (stored spare : List RecentConnection) :
    Prop :=
  ∃ rest, updateConnections connection (stored ++ spare) =
      some (replacedConnections connection stored ++ rest) ∧
    ∀ other ∈ rest, other.hostname = []

/-- A host is not stored, or is the last one stored, or the last but one while there are
fewer than ten. -/
def AmongLast (hostname : List UInt8) (stored : List RecentConnection) : Prop :=
  let hosts := stored.map RecentConnection.hostname
  hostname ∉ hosts ∨ hosts.getLast? = some hostname ∨
    hosts.length < recentConnections ∧ hosts.dropLast.getLast? = some hostname

section Arrays

variable {connection : RecentConnection} {stored spare front : List RecentConnection}
  {found : RecentConnection}

/-- No host in front of a stored one is the same. -/
theorem ConnectionArrays.front_ne {back : List RecentConnection}
    (arrays : ConnectionArrays stored spare) (spelled : stored = front ++ found :: back) :
    ∀ other ∈ front, other.hostname ≠ found.hostname := by
  intro other member same
  have distinct := arrays.distinct
  rw [spelled, List.map_append, List.map_cons] at distinct
  exact List.disjoint_of_nodup_append distinct (List.mem_map_of_mem member)
    (same ▸ List.mem_cons_self)

theorem ConnectionArrays.back_ne {back : List RecentConnection}
    (arrays : ConnectionArrays stored spare) (spelled : stored = front ++ found :: back) :
    ∀ other ∈ back, other.hostname ≠ found.hostname := by
  intro other member same
  have distinct := arrays.distinct
  rw [spelled, List.map_append, List.map_cons] at distinct
  exact (List.nodup_cons.mp distinct.of_append_right).1 (same ▸ List.mem_map_of_mem member)

theorem ConnectionArrays.length_le (arrays : ConnectionArrays stored spare) :
    stored.length ≤ recentConnections := by
  rw [← arrays.full, List.length_append]
  exact Nat.le_add_right _ _

/-- For a new host all stored connections stay, but for a tenth. -/
theorem replacedConnections_absent
    (absent : ∀ other ∈ stored, other.hostname ≠ connection.hostname) :
    replacedConnections connection stored = connection :: stored.take 9 := by
  have kept : stored.filter (fun other => other.hostname ≠ connection.hostname) = stored :=
    List.filter_eq_self.mpr fun other member => decide_eq_true (absent other member)
  rw [replacedConnections, kept]
  rfl

/-- For a known host the stored connections stay but for its own. -/
theorem ConnectionArrays.replacedConnections_present {back : List RecentConnection}
    (arrays : ConnectionArrays stored spare) (spelled : stored = front ++ found :: back)
    (same : found.hostname = connection.hostname) :
    replacedConnections connection stored = connection :: (front ++ back) := by
  have short := arrays.length_le
  have fronts : front.filter (fun other => other.hostname ≠ connection.hostname) = front :=
    List.filter_eq_self.mpr fun other member =>
      decide_eq_true (same ▸ arrays.front_ne spelled other member)
  have backs : back.filter (fun other => other.hostname ≠ connection.hostname) = back :=
    List.filter_eq_self.mpr fun other member =>
      decide_eq_true (same ▸ arrays.back_ne spelled other member)
  rw [replacedConnections, spelled, List.filter_append, List.filter_cons_of_neg (by simp [same]),
    fronts, backs, List.take_of_length_le]
  rw [spelled, List.length_append, List.length_cons] at short
  rw [List.length_cons, List.length_append]
  omega

/-- While there is room, a stored host and what is behind it stand in the first nine
places. -/
theorem take_nine {back : List RecentConnection} (room : stored.length < recentConnections)
    (spelled : stored = front ++ found :: back) :
    (stored ++ spare).take 9 = front ++ found :: (back ++ spare.take (9 - stored.length)) := by
  rw [List.take_append, List.take_of_length_le (Nat.le_of_lt_succ room)]
  conv_lhs => rw [spelled]
  simp [spelled]

/-- The last stored host comes to the front. -/
theorem ConnectionArrays.update_last (arrays : ConnectionArrays stored spare)
    (spelled : stored = front ++ [found]) (same : found.hostname = connection.hostname)
    (room : stored.length < recentConnections) :
    updateConnections connection (stored ++ spare) =
      some (connection :: front ++ clearedConnection :: spare.take (9 - stored.length)) := by
  rw [updateConnections_present connection arrays.full arrays.used arrays.cleared
    (by simp [spelled]) (take_nine room spelled)
    (fun other member => same ▸ arrays.front_ne spelled other member) same]
  have place : min stored.length 9 - 1 = front.length := by
    rw [Nat.min_eq_left (Nat.le_of_lt_succ room), spelled]
    simp
  rw [place, List.nil_append, List.set_append_right _ _ (Nat.le_refl _), Nat.sub_self,
    List.set_cons_zero, ← List.cons_append]

/-- While there is room, the last but one comes to the front. -/
theorem ConnectionArrays.update_last_but_one {next : RecentConnection}
    (arrays : ConnectionArrays stored spare) (spelled : stored = front ++ [found, next])
    (same : found.hostname = connection.hostname) (room : stored.length < recentConnections) :
    updateConnections connection (stored ++ spare) =
      some (connection :: (front ++ [next]) ++
        clearedConnection :: spare.take (9 - stored.length)) := by
  rw [updateConnections_present connection arrays.full arrays.used arrays.cleared
    (by simp [spelled]) (take_nine room spelled)
    (fun other member => same ▸ arrays.front_ne spelled other member) same]
  have place : min stored.length 9 - 1 = front.length + 1 := by
    rw [Nat.min_eq_left (Nat.le_of_lt_succ room), spelled]
    simp
  rw [place, List.set_append_right _ _ (Nat.le_add_right _ 1), Nat.add_sub_cancel_left]
  simp

/-- While there is room, the host comes to the front, the one behind it is stored twice, and
the last one is cleared. -/
theorem ConnectionArrays.update_inner {middle : List RecentConnection}
    {next lost : RecentConnection} (arrays : ConnectionArrays stored spare)
    (spelled : stored = front ++ found :: (next :: middle ++ [lost]))
    (same : found.hostname = connection.hostname) (room : stored.length < recentConnections) :
    updateConnections connection (stored ++ spare) =
      some (connection :: (front ++ next :: next :: middle ++
        clearedConnection :: spare.take (9 - stored.length))) := by
  rw [updateConnections_present connection arrays.full arrays.used arrays.cleared
    (by simp [spelled]) (take_nine room spelled)
    (fun other member => same ▸ arrays.front_ne spelled other member) same]
  have place : min stored.length 9 - 1 = (front ++ next :: next :: middle).length := by
    rw [Nat.min_eq_left (Nat.le_of_lt_succ room), spelled]
    simp
  rw [place]
  simp

/-- The first nine of ten stored entries are those before the last one. -/
theorem ConnectionArrays.take_nine_full {middle : List RecentConnection}
    {lost : RecentConnection} (arrays : ConnectionArrays stored spare)
    (spelled : stored = front ++ found :: (middle ++ [lost]))
    (full : ¬ stored.length < recentConnections) :
    (stored ++ spare).take 9 = front ++ found :: middle := by
  have total := arrays.full
  rw [List.length_append] at total
  have long : (front ++ found :: middle).length = 9 := by
    rw [spelled] at total full
    simp only [List.length_append, List.length_cons, List.length_nil, recentConnections]
      at total full ⊢
    omega
  rw [show stored ++ spare = front ++ found :: middle ++ (lost :: spare) by simp [spelled],
    ← long, List.take_left]

/-- A host that stands further in front costs the last one its place. -/
theorem ConnectionArrays.update_loses {middle : List RecentConnection} {lost : RecentConnection}
    (arrays : ConnectionArrays stored spare)
    (spelled : stored = front ++ found :: (middle ++ [lost]))
    (same : found.hostname = connection.hostname)
    (inner : stored.length < recentConnections → middle ≠ []) :
    ∀ updated, updateConnections connection (stored ++ spare) = some updated →
      ∀ other ∈ updated, other.hostname ≠ lost.hostname := by
  have others : ∀ other ∈ front ++ found :: middle, other.hostname ≠ lost.hostname :=
    arrays.front_ne (by simp [spelled] : stored = (front ++ found :: middle) ++ lost :: [])
  have found_other : connection.hostname ≠ lost.hostname := by
    rw [← same]
    exact others found (by simp)
  have lost_used : lost.hostname ≠ [] := arrays.used lost (by simp [spelled])
  intro updated update
  by_cases room : stored.length < recentConnections
  · obtain ⟨next, middle, rfl⟩ := List.exists_cons_of_ne_nil (inner room)
    rw [arrays.update_inner spelled same room] at update
    rw [List.forall_mem_append, List.forall_mem_cons, List.forall_mem_cons] at others
    obtain ⟨fronts, -, nexts, middles⟩ := others
    rw [← Option.some.inj update, List.forall_mem_cons, List.forall_mem_append,
      List.forall_mem_append, List.forall_mem_cons, List.forall_mem_cons, List.forall_mem_cons]
    refine ⟨found_other, ⟨fronts, nexts, nexts, middles⟩, lost_used.symm, fun other member => ?_⟩
    rw [arrays.cleared other (List.mem_of_mem_take member)]
    exact lost_used.symm
  · rw [updateConnections_present connection arrays.full arrays.used arrays.cleared
      (by simp [spelled]) (arrays.take_nine_full spelled room)
      (fun other member => same ▸ arrays.front_ne spelled other member) same] at update
    rw [← Option.some.inj update, List.forall_mem_cons]
    refine ⟨found_other, fun other member => ?_⟩
    obtain kept | rfl := List.mem_or_eq_of_mem_set member
    · rw [List.mem_append, List.mem_cons] at kept
      apply others
      rw [List.mem_append, List.mem_cons]
      obtain kept | rfl | kept := kept
      · exact Or.inl kept
      · cases middle with
        | nil => exact Or.inr (Or.inl rfl)
        | cons next middle => exact Or.inr (Or.inr List.mem_cons_self)
      · exact Or.inr (Or.inr kept)
    · exact lost_used.symm

/-- A host that is not among the last ones has others behind it. -/
theorem exists_of_not_amongLast {hostname : List UInt8} (further : ¬ AmongLast hostname stored) :
    ∃ front found middle lost, stored = front ++ found :: (middle ++ [lost]) ∧
      found.hostname = hostname ∧ (stored.length < recentConnections → middle ≠ []) := by
  rw [AmongLast] at further
  simp only [not_or, not_and, not_not] at further
  obtain ⟨listed, not_last, not_second⟩ := further
  obtain ⟨found, member, same⟩ := List.mem_map.mp listed
  obtain ⟨front, behind, spelled⟩ := List.append_of_mem member
  obtain rfl | ⟨middle, lost, rfl⟩ := List.eq_nil_or_concat behind
  · exact absurd (by simp [spelled, same]) not_last
  · rw [List.concat_eq_append] at spelled
    refine ⟨front, found, middle, lost, spelled, same, fun room => ?_⟩
    rintro rfl
    rw [← List.length_map (f := RecentConnection.hostname)] at room
    exact not_second room (by simp [spelled, same])

/-- A host that is not stored is put in front. -/
theorem ConnectionArrays.replaces_absent (arrays : ConnectionArrays stored spare)
    (named : connection.hostname ≠ [])
    (absent : ∀ other ∈ stored, other.hostname ≠ connection.hostname) :
    ReplacesConnections connection stored spare := by
  refine ⟨spare.take (9 - stored.length), ?_, ?_⟩
  · rw [updateConnections_absent connection arrays.full arrays.cleared named
      fun other member => absent other (List.mem_of_mem_take member),
      replacedConnections_absent absent, List.take_append, List.cons_append]
  · exact fun other member => arrays.cleared other (List.mem_of_mem_take member)

/-- The last host that is stored moves to the front. -/
theorem ConnectionArrays.replaces_last (arrays : ConnectionArrays stored spare)
    (named : connection.hostname ≠ []) (spelled : stored = front ++ [found])
    (same : found.hostname = connection.hostname) :
    ReplacesConnections connection stored spare := by
  have kept := arrays.replacedConnections_present spelled same
  rw [List.append_nil] at kept
  by_cases room : stored.length < recentConnections
  · refine ⟨_, kept ▸ arrays.update_last spelled same room, ?_⟩
    rw [List.forall_mem_cons]
    exact ⟨rfl, fun other member => arrays.cleared other (List.mem_of_mem_take member)⟩
  · -- the tenth connection falls out when room is made
    have full : stored.length = 10 := Nat.le_antisymm arrays.length_le (Nat.not_lt.mp room)
    have nine : front.length = 9 := by
      rw [spelled, List.length_append, List.length_singleton] at full
      omega
    have nothing : spare = [] := by
      have lengths := arrays.full
      rw [List.length_append, full, recentConnections] at lengths
      exact List.eq_nil_of_length_eq_zero (by omega)
    have first : stored.take 9 = front := by rw [spelled, ← nine, List.take_left]
    have update := updateConnections_absent connection arrays.full arrays.cleared named
      (by rw [first]; exact same ▸ arrays.front_ne spelled)
    refine ⟨[], ?_, by simp⟩
    rw [update, kept, nothing, List.append_nil, first, List.append_nil]

/-- A host among the last ones leaves the others in their order. -/
theorem ConnectionArrays.replaces_of_amongLast (arrays : ConnectionArrays stored spare)
    (named : connection.hostname ≠ []) (last : AmongLast connection.hostname stored) :
    ReplacesConnections connection stored spare := by
  obtain absent | last | ⟨room, second⟩ := last
  · exact arrays.replaces_absent named fun other member same =>
      absent (same ▸ List.mem_map_of_mem member)
  · obtain ⟨hosts, hosts_eq⟩ := List.getLast?_eq_some_iff.mp last
    obtain ⟨front, behind, spelled, -, behind_hosts⟩ := List.map_eq_append_iff.mp hosts_eq
    obtain ⟨found, rfl, same⟩ := List.map_eq_singleton_iff.mp behind_hosts
    exact arrays.replaces_last named spelled same
  · obtain ⟨hosts, hosts_eq⟩ := List.getLast?_eq_some_iff.mp second
    have some_hosts : stored.map RecentConnection.hostname ≠ [] := by
      intro none
      rw [none] at hosts_eq
      simp at hosts_eq
    have whole := List.dropLast_append_getLast some_hosts
    rw [hosts_eq, List.append_assoc] at whole
    obtain ⟨front, behind, spelled, -, behind_hosts⟩ := List.map_eq_append_iff.mp whole.symm
    obtain ⟨found, others, rfl, same, next_host⟩ := List.map_eq_cons_iff.mp behind_hosts
    obtain ⟨next, rfl, -⟩ := List.map_eq_singleton_iff.mp next_host
    rw [List.length_map] at room
    refine ⟨_, arrays.replacedConnections_present spelled same ▸
      arrays.update_last_but_one spelled same room, ?_⟩
    rw [List.forall_mem_cons]
    exact ⟨rfl, fun other member => arrays.cleared other (List.mem_of_mem_take member)⟩

/-- Any other host costs the last one its place. -/
theorem ConnectionArrays.amongLast_of_replaces (arrays : ConnectionArrays stored spare)
    (replaces : ReplacesConnections connection stored spare) :
    AmongLast connection.hostname stored := by
  by_contra further
  obtain ⟨rest, update, -⟩ := replaces
  obtain ⟨front, found, middle, lost, spelled, same, inner⟩ := exists_of_not_amongLast further
  refine arrays.update_loses spelled same inner _ update lost ?_ rfl
  rw [arrays.replacedConnections_present spelled same]
  simp

end Arrays

variable {connection : RecentConnection} {stored spare : List RecentConnection}

/-- The list that should be kept names no host twice. -/
theorem replacedConnections_distinct
    (distinct : (stored.map RecentConnection.hostname).Nodup) :
    ((replacedConnections connection stored).map RecentConnection.hostname).Nodup := by
  refine List.Nodup.sublist ((List.take_sublist _ _).map _) ?_
  rw [List.map_cons, List.nodup_cons]
  refine ⟨fun member => ?_, distinct.sublist (List.filter_sublist.map _)⟩
  obtain ⟨other, kept, same⟩ := List.mem_map.mp member
  have other_ne : other.hostname ≠ connection.hostname := by simpa using List.of_mem_filter kept
  exact other_ne same

/-- **The list of recent hosts.** An accepted connection is passed on in front of the
stored ones of other hosts exactly when its host is new or among the last ones. -/
theorem updateConnections_replaces_iff (arrays : ConnectionArrays stored spare)
    (named : connection.hostname ≠ []) :
    ReplacesConnections connection stored spare ↔ AmongLast connection.hostname stored :=
  ⟨arrays.amongLast_of_replaces, arrays.replaces_of_amongLast named⟩

/-- The connection with the host `name` and nothing else. -/
def namedConnection (name : String) : RecentConnection := ⟨CString.ascii name, [], [], []⟩

/-- The last but one of three hosts connects again. -/
theorem updateConnections_replaces_iff_second :
    ReplacesConnections (namedConnection "b")
      [namedConnection "a", namedConnection "b", namedConnection "c"]
      (List.replicate 7 clearedConnection) := by
  refine (updateConnections_replaces_iff ⟨by decide, by decide, by decide, by decide⟩
    (by decide)).mpr (Or.inr (Or.inr ?_))
  decide

/-- The first of three hosts connects again: the second one is passed on twice, and the
third one not at all. -/
theorem updateConnections_duplicates :
    let stored := [namedConnection "a", namedConnection "b", namedConnection "c"]
    let spare := List.replicate 7 clearedConnection
    updateConnections (namedConnection "a") (stored ++ spare) =
        some (namedConnection "a" :: namedConnection "b" :: namedConnection "b" :: spare) ∧
      ¬ ReplacesConnections (namedConnection "a") stored spare := by
  intro stored spare
  have passed : updateConnections (namedConnection "a") (stored ++ spare) =
      some (namedConnection "a" :: namedConnection "b" :: namedConnection "b" :: spare) := by
    decide
  refine ⟨passed, ?_⟩
  rintro ⟨rest, update, -⟩
  have kept : replacedConnections (namedConnection "a") stored =
      [namedConnection "a", namedConnection "b", namedConnection "c"] := by decide
  rw [passed, kept, Option.some.injEq] at update
  have third : namedConnection "b" = namedConnection "c" :=
    Option.some.inj (congrArg (fun list => list[2]?) update)
  exact absurd third (by decide)

end Hackterm
