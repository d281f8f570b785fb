import LiberalOS.Foundation.RawJson
import LiberalOS.Kernel.Printf
import LiberalOS.Kernel.ProcName

/-!
# The process table as JSON

`sys_agentstat` of `kernel/sysproc.c` prints one JSON object for each process. The name and the role
of a process are printed between quotes as they are.

## Main results

* `agentstat_json_iff` — the runs in which what is printed is JSON with these names and roles.
-/
namespace LiberalOS.Syscalls
open Foundation Kernel

/-! ## The system call -/

def states : ProcState → CString
  | .unused => .lit "unused"
  | .used => .lit "used"
  | .sleeping => .lit "sleep"
  | .runnable => .lit "runble"
  | .running => .lit "run"
  | .zombie => .lit "zombie"

def slotFormat : CString :=
  .lit ("\x7b\"pid\":%d,\"name\":\"%s\",\"role\":\"%s\",\"prio\":%d,\"st\":\"%s\"," ++
    "\"rss_kb\":%d,\"quota_pg\":%d,\"qdenied\":%d\x7d")

/-- The object of a slot. -/
def slotText (s : NamedTable) (i : Fin nproc) : List UInt8 :=
  let p := s.table.proc i
  printf slotFormat
    [.int p.pid, .str (some (s.name i).toList), .str (some p.agentRole.toList), .int p.priority,
      .str (some (states p.state).bytes), .int (wrap32 (p.mem.vm.sz / 1024 : Nat)),
      .int p.mem.memQuota, .int p.mem.quotaDenied]

/-- The loop over the table. -/
def agentstatLoop (s : NamedTable) : Bool → List (Fin nproc) → List UInt8
  | _, [] => []
  | first, i :: is =>
    if (s.table.proc i).state = .unused then agentstatLoop s first is
    else (if first then [] else printf (.lit ",") []) ++ slotText s i ++ agentstatLoop s false is

def sysAgentstat (s : NamedTable) : List UInt8 :=
  printf (.lit "[") [] ++ agentstatLoop s true (List.finRange nproc) ++ printf (.lit "]\n") []

/-! ## What is printed -/

/-- The text of an `int`. -/
def intNum (v : Int) : NumText where
  text := printint (wrap32 v) 10 true
  valid := by
    obtain ⟨neg, d, t, htext, hd, ht, hzero⟩ := printint_ten (wrap32 v) true
    exact htext ▸ isNumber_digits hd ht hzero neg
  numByte := by
    obtain ⟨neg, d, t, htext, hd, ht, -⟩ := printint_ten (wrap32 v) true
    exact htext ▸ isNumByte_digits hd ht neg

def key (k : String) : List UInt8 := (CString.lit k).bytes

/-- The members of the object of a slot, up to the last one. -/
def slotMembers (s : NamedTable) (i : Fin nproc) : List (List UInt8 × RawValue) :=
  let p := s.table.proc i
  [(key "pid", .num (intNum p.pid)), (key "name", .str (s.nameStr i)),
    (key "role", .str (s.roleStr i)), (key "prio", .num (intNum p.priority)),
    (key "st", .str (states p.state).bytes),
    (key "rss_kb", .num (intNum (wrap32 (p.mem.vm.sz / 1024 : Nat)))),
    (key "quota_pg", .num (intNum p.mem.memQuota))]

def slotDenied (s : NamedTable) (i : Fin nproc) : NumText :=
  intNum (s.table.proc i).mem.quotaDenied

theorem slotFormat_eq : slotFormat.bytes =
    123 :: 34 :: (key "pid" ++ 34 :: 58 :: 37 :: 100 :: 44 ::
      34 :: (key "name" ++ 34 :: 58 :: 34 :: 37 :: 115 :: 34 :: 44 ::
      34 :: (key "role" ++ 34 :: 58 :: 34 :: 37 :: 115 :: 34 :: 44 ::
      34 :: (key "prio" ++ 34 :: 58 :: 37 :: 100 :: 44 ::
      34 :: (key "st" ++ 34 :: 58 :: 34 :: 37 :: 115 :: 34 :: 44 ::
      34 :: (key "rss_kb" ++ 34 :: 58 :: 37 :: 100 :: 44 ::
      34 :: (key "quota_pg" ++ 34 :: 58 :: 37 :: 100 :: 44 ::
      34 :: (key "qdenied" ++ 34 :: 58 :: 37 :: 100 :: [125])))))))) := by
  decide

theorem slotText_eq (s : NamedTable) (i : Fin nproc) : slotText s i =
    123 :: (membersText (slotMembers s i) (key "qdenied") (slotDenied s i) ++ [125]) := by
  have hnil : printfLoop 0 [] [] = [] := rfl
  rw [slotText, printf, slotFormat_eq]
  simp (disch := decide) only [printfLoop_cons, printfLoop_append, printfLoop_d, printfLoop_s, hnil,
    CString.cstr_bytes]
  simp only [slotMembers, membersText_cons, membersText_nil, memberText_num_append,
    memberText_str_append]
  rfl

/-! ## Reading it back -/

/-- The members of this name, and there is one, have the value `b`. -/
def HasStr (ms : List (List UInt8 × Json)) (k b : List UInt8) : Prop :=
  (∃ v, (k, v) ∈ ms) ∧ ∀ v, (k, v) ∈ ms → v = .str b

/-- An object with the name and the role of the slot. -/
def SlotObject (s : NamedTable) (i : Fin nproc) (v : Json) : Prop :=
  ∃ ms, v = .obj ms ∧ HasStr ms (key "name") (s.nameStr i) ∧ HasStr ms (key "role") (s.roleStr i)

/-- The slots with a process. -/
def live (s : NamedTable) : List (Fin nproc) := (List.finRange nproc).filter (s.Live ·)

/-- What is printed is one JSON array on a line of its own, with an object for each process. -/
def PrintsJson (s : NamedTable) : Prop :=
  ∃ text vs, sysAgentstat s = text ++ [10] ∧ (10 : UInt8) ∉ text ∧ IsJson text (.arr vs) ∧
    List.Forall₂ (SlotObject s) (live s) vs

theorem clean_key_qdenied : Clean (key "qdenied") := clean_of_all (by decide)

theorem clean_keys (s : NamedTable) (i : Fin nproc) : ∀ m ∈ slotMembers s i, Clean m.1 := by
  simp only [slotMembers, List.forall_mem_cons]
  refine ⟨?_, ?_, ?_, ?_, ?_, ?_, ?_, List.forall_mem_nil _⟩ <;> exact clean_of_all (by decide)

theorem clean_states (st : ProcState) : Clean (states st).bytes := by
  cases st <;> exact clean_of_all (by decide)

/-- The strings of a slot. -/
theorem forall_str_slotMembers (P : List UInt8 → List UInt8 → Prop) {s : NamedTable}
    {i : Fin nproc} :
    (∀ m ∈ slotMembers s i, ∀ b, m.2 = .str b → P m.1 b) ↔ P (key "name") (s.nameStr i) ∧
      P (key "role") (s.roleStr i) ∧ P (key "st") (states (s.table.proc i).state).bytes := by
  simp [slotMembers]

theorem slotObject_json (s : NamedTable) (i : Fin nproc) :
    SlotObject s i (.obj (membersJson (slotMembers s i) (key "qdenied") (slotDenied s i))) := by
  have hne : [key "pid", key "name", key "role", key "prio", key "st", key "rss_kb",
      key "quota_pg", key "qdenied"].Nodup := by decide
  simp only [List.nodup_cons, List.mem_cons, List.not_mem_nil, or_false, not_or] at hne
  refine ⟨_, rfl, ?_, ?_⟩ <;> simp [HasStr, membersJson, slotMembers, RawValue.json] <;> grind

/-- The object of a slot is read back as one with its name and its role exactly if they are
clean. -/
theorem parsesValue_slot_iff (s : NamedTable) (i : Fin nproc) (t : List UInt8) (v : Json)
    (r : List UInt8) : ParsesValue (slotText s i ++ t) v r ∧ SlotObject s i v ↔
      s.CleanSlot i ∧
        v = .obj (membersJson (slotMembers s i) (key "qdenied") (slotDenied s i)) ∧ r = t := by
  have htext : slotText s i ++ t =
      123 :: (membersText (slotMembers s i) (key "qdenied") (slotDenied s i) ++ 125 :: t) := by
    rw [slotText_eq, List.cons_append, List.append_assoc]
    rfl
  obtain ⟨u, hu⟩ := exists_membersText (slotMembers s i) (key "qdenied") (slotDenied s i) (125 :: t)
  have hobject : ParsesValue (slotText s i ++ t) v r ↔ ∃ ms, v = .obj ms ∧ ParsesMembers
      (membersText (slotMembers s i) (key "qdenied") (slotDenied s i) ++ 125 :: t) ms r := by
    rw [htext, hu]
    exact parsesValue_object_iff
  have hread (hclean : s.CleanSlot i) (ms : List (List UInt8 × Json)) : ParsesMembers
      (membersText (slotMembers s i) (key "qdenied") (slotDenied s i) ++ 125 :: t) ms r ↔
        ms = membersJson (slotMembers s i) (key "qdenied") (slotDenied s i) ∧ r = t :=
    parsesMembers_clean_iff clean_key_qdenied (clean_keys s i)
      ((forall_str_slotMembers fun _ => Clean).mpr ⟨hclean.1, hclean.2, clean_states _⟩)
  constructor
  · rintro ⟨hvalue, ms, rfl, hname, hrole⟩
    obtain ⟨_, hms, hmembers⟩ := hobject.mp hvalue
    obtain rfl := Json.obj.inj hms
    have hstr := clean_of_parsesMembers (clean_keys s i) hmembers
      ((forall_str_slotMembers fun k b => Clean b ∨ ∀ v, (k, v) ∈ ms → v = .str b).mpr
        ⟨Or.inr hname.2, Or.inr hrole.2, Or.inl (clean_states _)⟩)
    obtain ⟨hn, hr, -⟩ := (forall_str_slotMembers fun _ => Clean).mp hstr
    obtain ⟨rfl, rfl⟩ := (hread ⟨hn, hr⟩ ms).mp hmembers
    exact ⟨⟨hn, hr⟩, rfl, rfl⟩
  · rintro ⟨hclean, rfl, rfl⟩
    exact ⟨hobject.mpr ⟨_, rfl, (hread hclean _).mpr ⟨rfl, rfl⟩⟩, slotObject_json s i⟩

/-- The array: commas stand between the objects. -/
theorem agentstatLoop_eq (s : NamedTable) (is : List (Fin nproc)) :
    agentstatLoop s false is = (is.filter (s.Live ·)).flatMap (fun i => 44 :: slotText s i) ∧
      agentstatLoop s true is = itemsText (slotText s) (is.filter (s.Live ·)) := by
  have hcomma : printf (.lit ",") [] = [44] := by decide
  induction is with
  | nil => exact ⟨rfl, rfl⟩
  | cons i is ih =>
    by_cases hunused : (s.table.proc i).state = .unused
    · have hlive : ¬ s.Live i := not_not.mpr hunused
      simpa [agentstatLoop, hunused, hlive] using ih
    · have hlive : s.Live i := hunused
      simp [agentstatLoop, hunused, hlive, hcomma, ih.1, itemsText]

theorem sysAgentstat_eq (s : NamedTable) :
    sysAgentstat s = 91 :: (itemsText (slotText s) (live s) ++ [93]) ++ [10] := by
  have hopen : printf (.lit "[") [] = [91] := by decide
  have hclose : printf (.lit "]\n") [] = [93, 10] := by decide
  rw [sysAgentstat, hopen, hclose, (agentstatLoop_eq s _).2]
  simp [live]

theorem slotText_printable {s : NamedTable} {i : Fin nproc} (h : s.CleanSlot i) :
    ∀ b ∈ slotText s i, 32 ≤ b := by
  have hmembers := membersText_printable clean_key_qdenied.2 (fun m hm => (clean_keys s i m hm).2)
    ((forall_str_slotMembers fun _ => Verbatim).mpr ⟨h.1.2, h.2.2, (clean_states _).2⟩)
    (n := slotDenied s i)
  rw [slotText_eq]
  simp only [List.mem_cons, List.mem_append]
  rintro b (rfl | hb | rfl | hb)
  · decide
  · exact hmembers b hb
  · decide
  · cases hb

theorem mem_live {s : NamedTable} {i : Fin nproc} : i ∈ live s ↔ s.Live i := by
  simp [live, List.mem_finRange]

/-- What is printed of a table is JSON exactly if the names and roles of all processes are clean. -/
theorem printsJson_iff (s : NamedTable) : PrintsJson s ↔ ∀ i, s.Live i → s.CleanSlot i := by
  have harray := isJson_array_iff (parsesValue_slot_iff s) (live s)
  simp only [mem_live] at harray
  rw [← harray]
  constructor
  · rintro ⟨text, vs, htext, -, hjson, hall⟩
    rw [sysAgentstat_eq] at htext
    obtain rfl := List.append_cancel_right htext
    exact ⟨vs, hjson, hall⟩
  · rintro ⟨vs, hjson, hall⟩
    have hclean := harray.mp ⟨vs, hjson, hall⟩
    refine ⟨_, vs, sysAgentstat_eq s, fun hten => ?_, hjson, hall⟩
    have hprintable := array_printable (fun i hi => slotText_printable (hclean i (mem_live.mp hi)))
    exact absurd (hprintable 10 hten) (by decide)

/-- For every run from the empty table: all the way, what `agentstat` prints is one JSON array on a
line of its own with an object for each process that has its name and its role, exactly if every
role that is accepted is clean, and so is the name that every `exec` leaves. -/
theorem agentstat_json_iff (ops : List NamedOp) :
    PrintsJson .procinit ∧ Along namedStep (fun _ _ t => PrintsJson t) .procinit ops ↔
      Along namedStep (fun s a _ => CleanStep s a) .procinit ops := by
  have htidy {s : NamedTable} (hs : s.Tidy) : PrintsJson s :=
    (printsJson_iff s).mpr fun i _ => hs.cleanSlot i
  have hiff : Along namedStep (fun _ _ t => PrintsJson t) .procinit ops ↔
      Along namedStep (fun s a _ => CleanStep s a) .procinit ops := by
    refine along_iff_of_invariant NamedTable.Tidy (fun s a t hs hstep _ => ⟨fun hjson => ?_, ?_⟩)
      (fun s a t hs hstep _ hclean => hs.step hstep hclean) NamedTable.tidy_procinit
      (along_true _ ops)
    · exact cleanStep_of_clean hstep ((printsJson_iff t).mp hjson)
    · exact fun hclean => htidy (hs.step hstep hclean)
  rw [hiff]
  exact and_iff_right (htidy NamedTable.tidy_procinit)

/-- Init sets its role to a letter and a quote. -/
def quotedRole : List NamedOp :=
  [⟨.userinit .ok, .lit ""⟩, ⟨.exec 0 (pageOf "a\""), .lit "/init"⟩, ⟨.setrole 0 0, .lit ""⟩]

/-- The quote ends the string early. -/
theorem quoted_role_breaks_json :
    ¬ ∀ ops s, exec namedStep .procinit ops = some s → PrintsJson s := by
  intro h
  have heval : (exec namedStep .procinit quotedRole).map
      (fun s => (decide (s.Live 0), s.roleStr 0)) = some (true, [97, 34]) := by
    decide +kernel
  obtain ⟨s, hs, hslot⟩ := Option.map_eq_some_iff.mp heval
  obtain ⟨hlive, hrole⟩ := Prod.mk.inj hslot
  have hclean := ((printsJson_iff s).mp (h _ s hs) 0 (of_decide_eq_true hlive)).2.2
  rw [hrole] at hclean
  exact absurd rfl (hclean 34 (by simp)).1

end LiberalOS.Syscalls
