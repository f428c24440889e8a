import Hackterm.Recents.Connections
import Mathlib.Tactic.SplitIfs

/-! # What an accepted connection does to the arrays

The arrays hold the stored connections first and cleared places behind them. A new
host is put in front of the others (`Hackterm.updateConnections_absent`). For a known
host the place behind it is copied into its place, and the last place in use is
cleared (`Hackterm.updateConnections_present`): that is a removal only when the host
stands in the last two places.
-/

namespace Hackterm

section Update

variable {stored spare : List RecentConnection}

/-- The places behind the first, after room was made, are the first nine places. -/
theorem shiftConnections_eq (full : (stored ++ spare).length = recentConnections) :
    ∃ first, (stored ++ spare).head? = some first ∧
      shiftConnections (stored ++ spare) = first :: (stored ++ spare).take 9 := by
  cases joined : stored ++ spare with
  | nil =>
      rw [joined] at full
      cases full
  | cons first others => exact ⟨first, rfl, rfl⟩

/-- `lastitem` is the number of connections before the new one, at most nine. -/
theorem lastItem_shiftConnections (full : (stored ++ spare).length = recentConnections)
    (used : ∀ connection ∈ stored, connection.hostname ≠ [])
    (cleared : ∀ connection ∈ spare, connection.hostname = []) (some_stored : stored ≠ []) :
    lastItem (shiftConnections (stored ++ spare)) = (min stored.length 9 : Nat) := by
  obtain ⟨first, head, shifted⟩ := shiftConnections_eq full
  have first_used : first.hostname ≠ [] := by
    rw [List.head?_append_of_ne_nil _ some_stored] at head
    exact used first (List.mem_of_head? head)
  have front_used : (stored.take 9).findIdx? (fun connection => connection.hostname == []) = none := by
    rw [List.findIdx?_eq_none_iff]
    intro connection member
    exact beq_false_of_ne (used connection (List.mem_of_mem_take member))
  rw [lastItem, shifted, List.findIdx?_cons, beq_false_of_ne first_used, List.take_append,
    List.findIdx?_append, front_used]
  cases behind : spare.take (9 - stored.length) with
  | nil =>
      have long : 9 ≤ stored.length := by
        have lengths := congrArg List.length behind
        rw [List.length_append, recentConnections] at full
        rw [List.length_take, List.length_nil] at lengths
        omega
      rw [Nat.min_eq_right long]
      rfl
  | cons gap others =>
      have gap_cleared : gap.hostname = [] :=
        cleared gap (List.mem_of_mem_take (behind ▸ List.mem_cons_self))
      rw [List.findIdx?_cons, gap_cleared]
      simp [Nat.min_comm]

/-- The places behind the new one hold what stood in the arrays. -/
theorem mem_shiftConnections {connections : List RecentConnection} {other : RecentConnection}
    (member : other ∈ shiftConnections connections) : other ∈ connections := by
  rcases List.mem_append.mp member with member | member
  · exact List.mem_of_mem_take member
  · exact List.mem_of_mem_take member

theorem length_closeGap (n : Nat) (connections : List RecentConnection) :
    (closeGap n connections).length = connections.length := by
  rw [closeGap]
  split
  · exact List.length_set
  · rfl

theorem mem_closeGap {n : Nat} {connections : List RecentConnection} {other : RecentConnection}
    (member : other ∈ closeGap n connections) :
    other ∈ connections ∨ other = clearedConnection := by
  rw [closeGap] at member
  split at member
  · rcases List.mem_or_eq_of_mem_set member with member | rfl
    · exact Or.inl member
    · rw [List.getD_eq_getElem?_getD]
      cases next : connections[n + 1]? with
      | none => exact Or.inr rfl
      | some behind => exact Or.inl (List.mem_of_getElem? next)
  · exact Or.inl member

/-- The arrays are passed on with all their places, and nothing comes into a place but the
new connection, what stood in another place, or a cleared one. -/
theorem updateConnections_places {connection : RecentConnection}
    {connections updated : List RecentConnection} (full : connections.length = recentConnections)
    (update : updateConnections connection connections = some updated) :
    updated.length = recentConnections ∧ ∀ other ∈ updated,
      other = connection ∨ other ∈ connections ∨ other = clearedConnection := by
  have shifted : (shiftConnections connections).length = recentConnections := by
    rw [shiftConnections, List.length_append, List.length_take, List.length_take, full]
    rfl
  have fronted : ∀ list : List RecentConnection, ∀ other ∈ list.set 0 connection,
      other = connection ∨ other ∈ list := fun list other member =>
    (List.mem_or_eq_of_mem_set member).symm
  unfold updateConnections at update
  dsimp only at update
  split at update
  · obtain rfl := Option.some.inj update
    refine ⟨by rw [List.length_set, shifted], fun other member => ?_⟩
    exact (fronted _ other member).imp_right fun kept => Or.inl (mem_shiftConnections kept)
  · obtain ⟨room, made, same⟩ := Option.bind_eq_some_iff.mp update
    obtain rfl := Option.some.inj same
    rw [clearLast] at made
    split_ifs at made
    obtain rfl := Option.some.inj made
    refine ⟨by rw [List.length_set, List.length_set, length_closeGap, List.length_set, shifted], ?_⟩
    intro other member
    rcases fronted _ other member with new | member
    · exact Or.inl new
    rcases List.mem_or_eq_of_mem_set member with member | rfl
    · rcases mem_closeGap member with member | rfl
      · exact (fronted _ other member).imp_right fun kept => Or.inl (mem_shiftConnections kept)
      · exact Or.inr (Or.inr rfl)
    · exact Or.inr (Or.inr rfl)

/-- **A new host.** It is put in front, and the last place falls out. -/
theorem updateConnections_absent (connection : RecentConnection)
    (full : (stored ++ spare).length = recentConnections)
    (cleared : ∀ connection ∈ spare, connection.hostname = [])
    (named : connection.hostname ≠ [])
    (absent : ∀ other ∈ stored.take 9, other.hostname ≠ connection.hostname) :
    updateConnections connection (stored ++ spare) =
      some (connection :: (stored ++ spare).take 9) := by
  obtain ⟨first, -, shifted⟩ := shiftConnections_eq full
  have missing : presentAt connection.hostname (first :: (stored ++ spare).take 9) = none := by
    rw [presentAt, Option.map_eq_none_iff, List.drop_one, List.tail_cons, List.findIdx?_eq_none_iff]
    intro other member
    rw [List.take_append, List.mem_append] at member
    apply beq_false_of_ne
    cases member with
    | inl member => exact (absent other member).symm
    | inr member =>
        rw [cleared other (List.mem_of_mem_take member)]
        exact named
  rw [updateConnections, shifted, missing]
  rfl

/-- The place behind a place is copied into it. -/
theorem closeGap_cons (connection : RecentConnection) (front back : List RecentConnection)
    (found : RecentConnection) (nine : (front ++ found :: back).length = 9) :
    closeGap (front.length + 1) (connection :: (front ++ found :: back)) =
      connection :: (front ++ back.headD found :: back) := by
  rw [closeGap, recentConnections]
  cases back with
  | nil =>
      have last : front.length = 8 := by simpa using nine
      rw [last, if_neg (by decide), List.headD_nil]
  | cons next back =>
      have room : front.length + 1 < 10 - 1 := by
        simp only [List.length_append, List.length_cons] at nine
        omega
      rw [if_pos room]
      simp

/-- **A known host.** It is put in front, the place behind it is copied into its place,
and the last place in use is cleared. -/
theorem updateConnections_present (connection : RecentConnection)
    (full : (stored ++ spare).length = recentConnections)
    (used : ∀ connection ∈ stored, connection.hostname ≠ [])
    (cleared : ∀ connection ∈ spare, connection.hostname = []) (some_stored : stored ≠ [])
    {front back : List RecentConnection} {found : RecentConnection}
    (split : (stored ++ spare).take 9 = front ++ found :: back)
    (first_found : ∀ other ∈ front, other.hostname ≠ connection.hostname)
    (same : found.hostname = connection.hostname) :
    updateConnections connection (stored ++ spare) =
      some (connection :: (front ++ back.headD found :: back).set (min stored.length 9 - 1)
        clearedConnection) := by
  have lastitem := lastItem_shiftConnections full used cleared some_stored
  obtain ⟨first, -, shifted⟩ := shiftConnections_eq full
  have nine : (front ++ found :: back).length = 9 := by
    rw [← split, List.length_take, full]
    rfl
  have present : presentAt connection.hostname (first :: (front ++ found :: back)) =
      some (front.length + 1) := by
    have before : front.findIdx? (fun other => connection.hostname == other.hostname) = none := by
      rw [List.findIdx?_eq_none_iff]
      intro other member
      exact beq_false_of_ne (first_found other member).symm
    rw [presentAt, List.drop_one, List.tail_cons, List.findIdx?_append, before, List.findIdx?_cons,
      same, beq_self_eq_true]
    simp
  have place : min stored.length 9 = (min stored.length 9 - 1) + 1 := by
    have positive := List.length_pos_iff.mpr some_stored
    omega
  rw [shifted] at lastitem
  rw [updateConnections, shifted, lastitem, split, present]
  dsimp only
  rw [List.set_cons_zero, closeGap_cons connection front back found nine, clearLast,
    if_neg (by omega), place]
  rfl

end Update

end Hackterm
