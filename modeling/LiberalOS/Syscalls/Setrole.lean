import LiberalOS.Kernel.AgentMeta

/-!
# Which roles are accepted

`sys_setrole` of `kernel/sysproc.c` is documented to accept the strings of 1 to 15 bytes. Its test
takes the result of `argstr` for a length that counts the NUL, as the comment on `argstr` says, but
`fetchstr` returns the length without it, so that roles of one byte are refused.

## Main results

* `setroleAsDocumented_iff` — the calls that do what is documented.
-/
namespace LiberalOS.Syscalls
open Foundation Kernel

/-- A string of 1 to 15 bytes is accepted and becomes the role, and nothing else changes. Without
such a string at the address, the call fails and nothing changes. -/
def SetroleAsDocumented (p : AgentProc) (a0 : Nat) : Prop :=
  (∀ s, UserString p.mem.vm a0 s → 1 ≤ s.length → s.length ≤ 15 →
      (p.setrole a0).1 = 0 ∧ (p.setrole a0).2.roleStr = s ∧
        ∃ role, (p.setrole a0).2 = { p with agentRole := role }) ∧
    ((∀ s, UserString p.mem.vm a0 s → ¬ (1 ≤ s.length ∧ s.length ≤ 15)) →
      p.setrole a0 = (-1, p))

/-- The call by the string it finds. -/
theorem setrole_of_userString {p : AgentProc} {a0 : Nat} {s : List UInt8}
    (hs : UserString p.mem.vm a0 s) :
    p.setrole a0 = if 2 ≤ s.length ∧ s.length ≤ 15 then
      (0, { p with agentRole := setAgentRole p.agentRole s }) else (-1, p) := by
  unfold AgentProc.setrole
  by_cases hlen : s.length < 16
  · have hfetch : fetchstr p.mem.vm a0 16 = some ⟨s, hs.zero_not_mem⟩ :=
      fetchstr_eq_some_iff.mpr ⟨hs, hlen⟩
    rw [hfetch]
    by_cases hone : s.length ≤ 1
    · rw [if_neg (by omega)]
      exact if_pos hone
    · rw [if_pos (by omega)]
      exact if_neg hone
  · have hfetch : fetchstr p.mem.vm a0 16 = none := by
      cases h : fetchstr p.mem.vm a0 16 with
      | none => rfl
      | some t =>
        obtain ⟨ht, hshort⟩ := fetchstr_eq_some_iff.mp h
        rw [hs.unique ht] at hlen
        exact absurd hshort hlen
    rw [hfetch, if_neg (by omega)]

theorem setrole_of_no_string {p : AgentProc} {a0 : Nat}
    (h : ∀ s, ¬ UserString p.mem.vm a0 s) : p.setrole a0 = (-1, p) := by
  have hfetch : fetchstr p.mem.vm a0 16 = none := by
    cases hf : fetchstr p.mem.vm a0 16 with
    | none => rfl
    | some t => exact absurd (fetchstr_eq_some_iff.mp hf).1 (h _)
  simp only [AgentProc.setrole, hfetch]

/-- For every process and every address: the call does what is documented exactly if the string
there, if there is one, is not of one byte. -/
theorem setroleAsDocumented_iff (p : AgentProc) (a0 : Nat) :
    SetroleAsDocumented p a0 ↔ ∀ s, UserString p.mem.vm a0 s → s.length ≠ 1 := by
  constructor
  · rintro ⟨haccept, -⟩ s hs hone
    have hret := (haccept s hs (by omega) (by omega)).1
    rw [setrole_of_userString hs, if_neg (by omega)] at hret
    cases hret
  · intro hne
    constructor
    · intro s hs hpos hshort
      have := hne s hs
      rw [setrole_of_userString hs, if_pos (by omega)]
      refine ⟨rfl, ?_, _, rfl⟩
      rw [AgentProc.roleStr, cstr_setAgentRole, cstr_eq_self hs.zero_not_mem]
      exact List.take_of_length_le hshort
    · intro hrefuse
      by_cases hstring : ∃ s, UserString p.mem.vm a0 s
      · obtain ⟨s, hs⟩ := hstring
        have := hrefuse s hs
        rw [setrole_of_userString hs, if_neg (by omega)]
      · exact setrole_of_no_string (not_exists.mp hstring)

/-- A process that has the string "x" at address 0. -/
def oneByteRole : AgentProc :=
  ⟨.running, 1, none, .replicate _ 0, 0, 0, ⟨pageOf "x", 0, 0⟩⟩

/-- The role "x" is refused. -/
theorem one_byte_role_refused : ¬ ∀ (p : AgentProc) (a0 : Nat), SetroleAsDocumented p a0 := by
  intro h
  have hx : UserString oneByteRole.mem.vm 0 [120] :=
    ⟨by decide, by decide, (by decide : byteAt oneByteRole.mem.vm 1 = some 0)⟩
  have hret := ((h oneByteRole 0).1 [120] hx (by decide) (by decide)).1
  revert hret
  decide

end LiberalOS.Syscalls
