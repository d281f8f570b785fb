import LiberalOS.Cache.Syscalls

/-!
# Role isolation

The semantic tiers compare the stored role with the caller's. The exact tiers compare only the key,
a hash of `role '|' prompt`, so pairs with the same concatenation share an entry. Roles are isolated
in every run in which the records with the key of a lookup carry its role, in particular when no
role contains the separator.

## Main results

* `roleIsolated_of_exactSameRole` — that condition is enough, for every run of system calls.
* `exactSameRole_of_no_separator` — roles without `'|'` meet it.
-/
namespace LiberalOS.Cache
open Foundation Kernel

/-! ## Statement -/

/-- A value that is returned was stored by a `cacheset` with the caller's role. -/
def RoleIsolated (s : LogState) : SysOp → LogState → Prop
  | .cacheget env stack vm a0 a1 a2 a3, _ =>
    (sysCacheget env stack vm s.st a0 a1 a2 a3).ret = 1 →
      ∃ e ∈ s.log, fetchstr vm a0 16 = some e.role ∧ (a2 ≠ 0 → argint a3 > 0 →
        DeliveredAt (sysCacheget env stack vm s.st a0 a1 a2 a3).vm a2 (argint a3) e.value)
  | _, _ => True

/-- The RAM slot with the key of the pair, and the last overlay record with it when RAM misses,
carry the role. -/
def SameRole (st : CacheState) (role prompt : CString) : Prop :=
  (∀ rec ∈ st.ram.toList, rec.key = cacheFnv1a role prompt → rec.roleStr = role.bytes) ∧
    (RamMiss role prompt st.ram →
      ∀ rec ∈ lastFor CacheSlot.key (cacheFnv1a role prompt) (diskRecords st.disk),
        rec.roleStr = role.bytes)

/-- Every lookup finds records of its own role under its key. -/
def ExactSameRole (s : LogState) : SysOp → LogState → Prop
  | .cacheget _ _ vm a0 a1 _ _, _ =>
    ∀ role ∈ fetchstr vm a0 16, ∀ prompt ∈ fetchstr vm a1 256, SameRole s.st role prompt
  | _, _ => True

instance : ∀ s op t, Decidable (ExactSameRole s op t)
  | s, .cacheget _ _ vm a0 a1 _ _, _ =>
    inferInstanceAs (Decidable (∀ role ∈ fetchstr vm a0 16, ∀ prompt ∈ fetchstr vm a1 256,
      (∀ rec ∈ s.st.ram.toList, rec.key = cacheFnv1a role prompt → rec.roleStr = role.bytes) ∧
      (RamMiss role prompt s.st.ram →
        ∀ rec ∈ lastFor CacheSlot.key (cacheFnv1a role prompt) (diskRecords s.st.disk),
          rec.roleStr = role.bytes)))
  | _, .cacheset .., _ | _, .cacheclear _, _ => isTrue trivial

/-! ## Invariant and runs -/

/-- Provenance, with the limit `argstr` puts on roles. -/
structure SysInv (s : LogState) : Prop extends Provenance s where
  role_length : ∀ e ∈ s.log, e.role.bytes.length < 16

theorem SysInv.init : SysInv .init := ⟨.init, by simp [LogState.init]⟩

theorem SysInv.step {s t : LogState} (h : SysInv s) {op : SysOp} (hstep : sysNext s op = some t) :
    SysInv t := by
  refine ⟨h.toProvenance.sysNext hstep, ?_⟩
  obtain rfl := Option.some.inj hstep
  cases op with
  | cacheset bmap junk vm a0 a1 a2 =>
    intro e he
    simp only [SysOp.logged] at he
    split at he
    · next role prompt val hrole _ _ =>
      split at he
      · rcases List.mem_append.mp he with hold | hnew
        · exact h.role_length e hold
        · obtain rfl := List.mem_singleton.mp hnew
          exact fetchstr_length hrole
      · exact h.role_length e he
    · exact h.role_length e he
  | cacheget env stack vm a0 a1 a2 a3 => exact h.role_length
  | cacheclear a0 => exact h.role_length

/-- A record of the role, made from an entry with a role short enough, was stored under it. -/
theorem MadeFrom.role_eq {rec : CacheSlot} {e : Entry} (h : MadeFrom rec e)
    (hlen : e.role.bytes.length < 16) {role : CString} (hrec : rec.roleStr = role.bytes) :
    e.role = role := by
  apply CString.ext
  rw [← hrec, h.role, List.take_of_length_le (by omega)]

/-- Whatever tier a hit comes from, its record carries the role. -/
theorem roleStr_of_hit {st : CacheState} {role prompt : CString} (hlen : role.bytes.length < 16)
    (hsame : SameRole st role prompt) {rec : CacheSlot}
    (hhit : hitRecord st role prompt = some rec) {e : Entry} (hmade : MadeFrom rec e) :
    rec.roleStr = role.bytes := by
  have hsem : sameRole role rec = true → rec.roleStr = role.bytes := by
    intro hr
    rw [hmade.sameRole_iff, List.take_of_length_le hlen.le] at hr
    exact hmade.role.trans hr
  rw [hitRecord, Option.or_eq_some_iff, Option.or_eq_some_iff] at hhit
  rcases hhit with hram | ⟨hno, hram | ⟨hno', hdisk⟩⟩
  · obtain ⟨hmem, hkey⟩ := mem_of_ramExact hram
    exact hsame.1 rec hmem hkey
  · rw [ramSemantic_eq] at hram
    exact hsem (mem_of_semanticMatch hram).2.2.1
  · rw [cacheDiskScan_eq, Option.or_eq_some_iff] at hdisk
    rcases hdisk with hlast | ⟨-, hbest⟩
    · exact hsame.2 ⟨hno, hno'⟩ rec hlast
    · exact hsem (mem_of_semanticMatch hbest).2.2.1

theorem SysInv.roleIsolated {s t : LogState} (h : SysInv s) {op : SysOp}
    (hcond : ExactSameRole s op t) : RoleIsolated s op t := by
  cases op with
  | cacheset bmap junk vm a0 a1 a2 => trivial
  | cacheclear a0 => trivial
  | cacheget env stack vm a0 a1 a2 a3 =>
    intro hret
    obtain ⟨role, prompt, rec, hrole, hprompt, hhit, hdeliv⟩ := sysCacheget_ret_one hret
    obtain ⟨e, he, hmade⟩ := h.toProvenance.entry_of_hit hhit
    have hstr := roleStr_of_hit (fetchstr_length hrole) (hcond role hrole prompt hprompt) hhit hmade
    obtain rfl := hmade.role_eq (h.role_length e he) hstr
    refine ⟨e, he, hrole, fun hout hmax => ?_⟩
    have hval : rec.valStr.take 191 = e.value := by
      rw [hmade.val, Entry.value, List.take_take, Nat.min_self]
    exact hval ▸ hdeliv hout hmax

/-- In every run of the system calls: if the records with the key of each lookup carry its role,
every value returned was stored under the caller's role. -/
theorem roleIsolated_of_exactSameRole (ops : List SysOp)
    (hcond : Along sysNext ExactSameRole .init ops) : Along sysNext RoleIsolated .init ops :=
  hcond.of_invariant SysInv (fun _ _ _ hs hstep hc => ⟨hs.roleIsolated hc, hs.step hstep⟩) .init

/-! ## Roles without the separator -/

theorem role_eq_of_hashed {r p r' p' : CString} (hr : separator ∉ r.bytes)
    (hr' : separator ∉ r'.bytes) (h : hashed r p = hashed r' p') : r = r' := by
  have hcut : ∀ a b : CString, separator ∉ a.bytes →
      (hashed a b).takeWhile (· != separator) = a.bytes := by
    intro a b ha
    rw [hashed, List.takeWhile_append_of_pos]
    · simp
    · intro c hc
      have : c ≠ separator := fun heq => ha (heq ▸ hc)
      simpa using this
  apply CString.ext
  rw [← hcut r p hr, ← hcut r' p' hr', h]

/-- If distinct hashed strings of the log and the query have distinct keys and no role contains
the separator, the records with the key of the query carry its role. -/
theorem exactSameRole_of_no_separator {s : LogState} (hs : SysInv s) {role prompt : CString}
    (hlen : role.bytes.length < 16) (hsep : separator ∉ role.bytes)
    (hlog : ∀ e ∈ s.log, separator ∉ e.role.bytes)
    (hinj : ∀ e ∈ s.log, e.key = cacheFnv1a role prompt → hashed e.role e.prompt =
      hashed role prompt) : SameRole s.st role prompt := by
  have hrec : ∀ (rec : CacheSlot) (e : Entry), e ∈ s.log → MadeFrom rec e →
      rec.key = cacheFnv1a role prompt → rec.roleStr = role.bytes := by
    intro rec e he hmade hkey
    have hrole : e.role = role :=
      role_eq_of_hashed (hlog e he) hsep (hinj e he (hmade.key.symm.trans hkey))
    rw [hmade.role, hrole, List.take_of_length_le (by omega)]
  refine ⟨fun rec hmem hkey => ?_, fun _ rec hmem => ?_⟩
  · obtain ⟨e, he, hmade⟩ := hs.ram rec hmem (hkey ▸ cacheFnv1a_ne_zero role prompt)
    exact hrec rec e he hmade hkey
  · obtain ⟨hdisk, hkey⟩ := mem_of_lastFor hmem
    obtain ⟨e, he, hmade⟩ := hs.disk rec hdisk
    exact hrec rec e he hmade hkey

/-! ## Two pairs with one concatenation -/

/-- `cacheset(role, prompt, val)` with the strings given by their offsets in a page. -/
def setCall (text : String) (a0 a1 a2 : Nat) : SysOp :=
  .cacheset (fun _ => true) .zero (pageOf text) a0 a1 a2

/-- `cacheget(role, prompt, out, 64)` with `out` at offset 1024. -/
def getCall (text : String) (a0 a1 : Nat) : SysOp :=
  .cacheget ⟨fun _ => true, fun _ => true⟩ (.replicate _ 0) (pageOf text) a0 a1 1024 64

/-- A lookup under the role of the store. -/
theorem own_role_isolated :
    Along sysNext RoleIsolated .init [setCall "a\x00b\x00v" 0 2 4, getCall "a\x00b\x00" 0 2] :=
  roleIsolated_of_exactSameRole _ (by decide +kernel)

/-- `("a", "b|c")` and `("a|b", "c")` hash the same bytes. -/
def sharedConcatenation : List SysOp :=
  [setCall "a\x00b|c\x00v" 0 2 6, getCall "a|b\x00c\x00" 0 4]

/-- The pairs of a run of system calls. -/
def sysPairs (ops : List SysOp) : List (CString × CString) :=
  ops.filterMap fun op => op.toOp.bind CacheOp.pair

theorem role_a_answers_role_ab :
    ¬ ∀ ops : List SysOp,
      (∀ a ∈ sysPairs ops, ∀ b ∈ sysPairs ops, cacheFnv1a a.1 a.2 = cacheFnv1a b.1 b.2 →
        hashed a.1 a.2 = hashed b.1 b.2) → Along sysNext RoleIsolated .init ops := by
  intro h
  have hrun := h sharedConcatenation (by decide +kernel)
  have hget := along_iff_forall.mp hrun [setCall "a\x00b|c\x00v" 0 2 6] (getCall "a|b\x00c\x00" 0 4)
    [] _ _ rfl rfl rfl (by decide +kernel)
  obtain ⟨e, he, hrole, -⟩ := hget
  have hno : ∀ e ∈ SysOp.logged .init (setCall "a\x00b|c\x00v" 0 2 6),
      fetchstr (pageOf "a|b\x00c\x00") 0 16 ≠ some e.role := by decide +kernel
  exact hno e he hrole

end LiberalOS.Cache
