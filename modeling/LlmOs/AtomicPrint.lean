import LlmOs.InterruptLocks

set_option autoImplicit false

/-!
# Printing as one step

Programs over spin locks whose devices are written to under a lock. A `print`
clears the interrupt flag, takes the lock, puts its text out unit by unit,
releases the lock and restores the flag; between any two of these steps the
processor may be interrupted if the flag allows it. In the atomic machine the
same `print` is one step, and what it keeps is the list of the texts.

`Step.simulated` says that every run of the first machine is a run of the second
one up to the text being put out, and `AtomicStep.realized` that nothing is lost.
Without their texts the programs are those of `InterruptLocks`.
-/
namespace LlmOs.AtomicPrint
open InterruptLocks
variable {L A : Type} [DecidableEq L]

inductive Prog (L A : Type) where
  | skip
  | halt
  | lock (l : L)
  | unlock (l : L)
  | setFlag (flag : Bool)
  | loadTable
  | withoutInterrupts (body : Prog L A)
  | seq (first second : Prog L A)
  | choice (left right : Prog L A)
  | loop (body : Prog L A)
  | print (l : L) (text : List A)

/-- The code of a context: programs, and what is left of a `print`. -/
inductive Instr (L A : Type) where
  | prog (p : Prog L A)
  | taking (l : L) (text : List A)
  | putting (l : L) (rest : List A)
  | releasing (l : L)

/-- The contexts are a code and the flag that was saved when they started, the
running one first. -/
structure State (L Log Code : Type) where
  flag : Bool
  holder : Holders L
  log : Log
  stack : List (List Code × Bool)

/-- What both machines do alike: a step of the program in front, with what it
leaves in its place. -/
inductive Basic (depth : ℕ) :
    Bool → Holders L → Prog L A → Bool → Holders L → List (Prog L A) → Prop where
  | skip {flag : Bool} {holder : Holders L} : Basic depth flag holder .skip flag holder []
  | halt {flag : Bool} {holder : Holders L} : Basic depth flag holder .halt flag holder [.halt]
  | lock {flag : Bool} {holder : Holders L} {l : L} (free : holder l = none) :
      Basic depth flag holder (.lock l) flag (Function.update holder l (some depth)) []
  | unlock {flag : Bool} {holder : Holders L} {l : L} :
      Basic depth flag holder (.unlock l) flag (Function.update holder l none) []
  | setFlag {flag : Bool} {holder : Holders L} {flag' : Bool} :
      Basic depth flag holder (.setFlag flag') flag' holder []
  | loadTable {flag : Bool} {holder : Holders L} :
      Basic depth flag holder .loadTable flag holder []
  | withoutInterrupts {flag : Bool} {holder : Holders L} {body : Prog L A} :
      Basic depth flag holder (.withoutInterrupts body) false holder [body, .setFlag flag]
  | seq {flag : Bool} {holder : Holders L} {first second : Prog L A} :
      Basic depth flag holder (.seq first second) flag holder [first, second]
  | left {flag : Bool} {holder : Holders L} {left right : Prog L A} :
      Basic depth flag holder (.choice left right) flag holder [left]
  | right {flag : Bool} {holder : Holders L} {left right : Prog L A} :
      Basic depth flag holder (.choice left right) flag holder [right]
  | again {flag : Bool} {holder : Holders L} {body : Prog L A} :
      Basic depth flag holder (.loop body) flag holder [body, .loop body]
  | done {flag : Bool} {holder : Holders L} {body : Prog L A} :
      Basic depth flag holder (.loop body) flag holder []

/-- The log of this machine is what each device has been given. -/
abbrev Device (L A : Type) := State L (L → List A) (Instr L A)

inductive Step (handlers : Set (Prog L A)) : Device L A → Device L A → Prop where
  | basic {flag flag' : Bool} {holder holder' : Holders L} {log : L → List A} {p : Prog L A}
      {ps : List (Prog L A)} {k : List (Instr L A)} {saved : Bool}
      {below : List (List (Instr L A) × Bool)}
      (h : Basic below.length flag holder p flag' holder' ps) :
      Step handlers ⟨flag, holder, log, (.prog p :: k, saved) :: below⟩
        ⟨flag', holder', log, (ps.map .prog ++ k, saved) :: below⟩
  | clear {flag : Bool} {holder : Holders L} {log : L → List A} {l : L} {text : List A}
      {k : List (Instr L A)} {saved : Bool} {below : List (List (Instr L A) × Bool)} :
      Step handlers ⟨flag, holder, log, (.prog (.print l text) :: k, saved) :: below⟩
        ⟨false, holder, log, (.taking l text :: .prog (.setFlag flag) :: k, saved) :: below⟩
  | take {flag : Bool} {holder : Holders L} {log : L → List A} {l : L} {text : List A}
      {k : List (Instr L A)} {saved : Bool} {below : List (List (Instr L A) × Bool)}
      (free : holder l = none) :
      Step handlers ⟨flag, holder, log, (.taking l text :: k, saved) :: below⟩
        ⟨flag, Function.update holder l (some below.length), log,
          (.putting l text :: .releasing l :: k, saved) :: below⟩
  | put {flag : Bool} {holder : Holders L} {log : L → List A} {l : L} {a : A} {rest : List A}
      {k : List (Instr L A)} {saved : Bool} {below : List (List (Instr L A) × Bool)} :
      Step handlers ⟨flag, holder, log, (.putting l (a :: rest) :: k, saved) :: below⟩
        ⟨flag, holder, Function.update log l (log l ++ [a]), (.putting l rest :: k, saved) :: below⟩
  | finish {flag : Bool} {holder : Holders L} {log : L → List A} {l : L}
      {k : List (Instr L A)} {saved : Bool} {below : List (List (Instr L A) × Bool)} :
      Step handlers ⟨flag, holder, log, (.putting l [] :: k, saved) :: below⟩
        ⟨flag, holder, log, (k, saved) :: below⟩
  | release {flag : Bool} {holder : Holders L} {log : L → List A} {l : L}
      {k : List (Instr L A)} {saved : Bool} {below : List (List (Instr L A) × Bool)} :
      Step handlers ⟨flag, holder, log, (.releasing l :: k, saved) :: below⟩
        ⟨flag, Function.update holder l none, log, (k, saved) :: below⟩
  | interrupt {holder : Holders L} {log : L → List A} {stack : List (List (Instr L A) × Bool)}
      {handler : Prog L A} (h : handler ∈ handlers) :
      Step handlers ⟨true, holder, log, stack⟩
        ⟨false, holder, log, ([.prog handler], true) :: stack⟩
  | return {flag : Bool} {holder : Holders L} {log : L → List A} {saved : Bool}
      {context : List (Instr L A) × Bool} {below : List (List (Instr L A) × Bool)} :
      Step handlers ⟨flag, holder, log, ([], saved) :: context :: below⟩
        ⟨saved, holder, log, context :: below⟩

/-- The log of the atomic machine is the list of the texts, in order. -/
abbrev Atomic (L A : Type) := State L (List (L × List A)) (Prog L A)

inductive AtomicStep (handlers : Set (Prog L A)) : Atomic L A → Atomic L A → Prop where
  | basic {flag flag' : Bool} {holder holder' : Holders L} {log : List (L × List A)}
      {p : Prog L A} {ps k : List (Prog L A)} {saved : Bool}
      {below : List (List (Prog L A) × Bool)}
      (h : Basic below.length flag holder p flag' holder' ps) :
      AtomicStep handlers ⟨flag, holder, log, (p :: k, saved) :: below⟩
        ⟨flag', holder', log, (ps ++ k, saved) :: below⟩
  | print {flag : Bool} {holder : Holders L} {log : List (L × List A)} {l : L} {text : List A}
      {k : List (Prog L A)} {saved : Bool} {below : List (List (Prog L A) × Bool)}
      (free : holder l = none) :
      AtomicStep handlers ⟨flag, holder, log, (.print l text :: k, saved) :: below⟩
        ⟨flag, holder, log ++ [(l, text)], (k, saved) :: below⟩
  | interrupt {holder : Holders L} {log : List (L × List A)}
      {stack : List (List (Prog L A) × Bool)} {handler : Prog L A} (h : handler ∈ handlers) :
      AtomicStep handlers ⟨true, holder, log, stack⟩
        ⟨false, holder, log, ([handler], true) :: stack⟩
  | return {flag : Bool} {holder : Holders L} {log : List (L × List A)} {saved : Bool}
      {context : List (Prog L A) × Bool} {below : List (List (Prog L A) × Bool)} :
      AtomicStep handlers ⟨flag, holder, log, ([], saved) :: context :: below⟩
        ⟨saved, holder, log, context :: below⟩

def Device.start (program : Prog L A) : Device L A :=
  ⟨false, fun _ => none, fun _ => [], [([.prog program], false)]⟩

def Atomic.start (program : Prog L A) : Atomic L A :=
  ⟨false, fun _ => none, [], [([program], false)]⟩

def Reachable (program : Prog L A) (handlers : Set (Prog L A)) : Device L A → Prop :=
  Relation.ReflTransGen (Step handlers) (Device.start program)

def AtomicReachable (program : Prog L A) (handlers : Set (Prog L A)) : Atomic L A → Prop :=
  Relation.ReflTransGen (AtomicStep handlers) (Atomic.start program)

/-- What a device has been given once these texts are out. -/
def spoken (log : List (L × List A)) (l : L) : List A :=
  (log.filter (fun m => m.1 = l)).flatMap Prod.snd

theorem spoken_concat (log : List (L × List A)) (l : L) (text : List A) :
    spoken (log ++ [(l, text)]) = Function.update (spoken log) l (spoken log l ++ text) := by
  funext l'
  by_cases h : l' = l
  · subst h
    simp [spoken]
  · have hne : ¬ l = l' := fun he => h he.symm
    simp [spoken, Function.update_of_ne h, hne]

def liftStack (stack : List (List (Prog L A) × Bool)) : List (List (Instr L A) × Bool) :=
  stack.map (fun c => (c.1.map .prog, c.2))

/-- The state of the devices between two prints. -/
def Atomic.device (a : Atomic L A) : Device L A :=
  ⟨a.flag, a.holder, spoken a.log, liftStack a.stack⟩

omit [DecidableEq L] in
theorem length_liftStack (stack : List (List (Prog L A) × Bool)) :
    (liftStack stack).length = stack.length := List.length_map _

theorem device_running {a : Atomic L A} {flag : Bool} {holder : Holders L} {log : L → List A}
    {i : Instr L A} {k : List (Instr L A)} {saved : Bool} {below : List (List (Instr L A) × Bool)}
    (h : a.device = ⟨flag, holder, log, (i :: k, saved) :: below⟩) :
    ∃ p k' below', i = .prog p ∧ k = k'.map .prog ∧ below = liftStack below' ∧
      log = spoken a.log ∧ a = ⟨flag, holder, a.log, (p :: k', saved) :: below'⟩ := by
  obtain ⟨flag', holder', log', stack⟩ := a
  injection h with hflag hholder hlog hstack
  obtain ⟨⟨code, saved'⟩, below', rfl, hcode, rfl⟩ := List.map_eq_cons_iff.1 hstack
  injection hcode with hcode hsaved
  obtain ⟨p, k', rfl, rfl, rfl⟩ := List.map_eq_cons_iff.1 hcode
  subst hflag hholder hsaved
  exact ⟨p, k', below', rfl, rfl, rfl, hlog.symm, rfl⟩

theorem device_returning {a : Atomic L A} {flag : Bool} {holder : Holders L} {log : L → List A}
    {saved : Bool} {context : List (Instr L A) × Bool} {below : List (List (Instr L A) × Bool)}
    (h : a.device = ⟨flag, holder, log, ([], saved) :: context :: below⟩) :
    ∃ context' below', context :: below = liftStack (context' :: below') ∧
      log = spoken a.log ∧ a = ⟨flag, holder, a.log, ([], saved) :: context' :: below'⟩ := by
  obtain ⟨flag', holder', log', stack⟩ := a
  injection h with hflag hholder hlog hstack
  obtain ⟨⟨code, saved'⟩, stack', rfl, hcode, hbelow⟩ := List.map_eq_cons_iff.1 hstack
  injection hcode with hcode hsaved
  obtain ⟨context', below', rfl, hcontext, rfl⟩ := List.map_eq_cons_iff.1 hbelow
  have hnil : code = [] := List.map_eq_nil_iff.1 hcode
  subst hflag hholder hsaved hnil
  exact ⟨context', below', by rw [← hcontext]; rfl, hlog.symm, rfl⟩

/-- A state of the devices and the state of the atomic machine it stands for. A
print counts as done when its lock is released. -/
inductive Matches : Device L A → Atomic L A → Prop where
  | between (a : Atomic L A) : Matches a.device a
  | taking {flag : Bool} {holder : Holders L} {log : List (L × List A)} {l : L} {text : List A}
      {k : List (Prog L A)} {saved : Bool} {below : List (List (Prog L A) × Bool)} :
      Matches
        ⟨false, holder, spoken log,
          (.taking l text :: .prog (.setFlag flag) :: k.map .prog, saved) :: liftStack below⟩
        ⟨flag, holder, log, (.print l text :: k, saved) :: below⟩
  | putting {flag : Bool} {holder : Holders L} {log : List (L × List A)} {l : L}
      {out : L → List A} {text written rest : List A} {k : List (Prog L A)} {saved : Bool}
      {below : List (List (Prog L A) × Bool)} (free : holder l = none)
      (hout : out = Function.update (spoken log) l (spoken log l ++ written))
      (htext : text = written ++ rest) :
      Matches
        ⟨false, Function.update holder l (some below.length), out,
          (.putting l rest :: .releasing l :: .prog (.setFlag flag) :: k.map .prog, saved) ::
            liftStack below⟩
        ⟨flag, holder, log, (.print l text :: k, saved) :: below⟩
  | releasing {flag : Bool} {holder : Holders L} {log : List (L × List A)} {l : L}
      {out : L → List A} {text : List A} {k : List (Prog L A)} {saved : Bool}
      {below : List (List (Prog L A) × Bool)} (free : holder l = none)
      (hout : out = Function.update (spoken log) l (spoken log l ++ text)) :
      Matches
        ⟨false, Function.update holder l (some below.length), out,
          (.releasing l :: .prog (.setFlag flag) :: k.map .prog, saved) :: liftStack below⟩
        ⟨flag, holder, log, (.print l text :: k, saved) :: below⟩
  | restoring {flag : Bool} {holder : Holders L} {log : List (L × List A)}
      {out : L → List A} {k : List (Prog L A)} {saved : Bool}
      {below : List (List (Prog L A) × Bool)} (hout : out = spoken log) :
      Matches
        ⟨false, holder, out, (.prog (.setFlag flag) :: k.map .prog, saved) :: liftStack below⟩
        ⟨flag, holder, log, (k, saved) :: below⟩

variable {handlers : Set (Prog L A)} {program : Prog L A}

/-- Outside a print the two machines go step by step, up to the first step of a
print. -/
theorem Step.simulated_between {a : Atomic L A} {s' : Device L A}
    (h : Step handlers a.device s') :
    ∃ a', Relation.ReflTransGen (AtomicStep handlers) a a' ∧ Matches s' a' := by
  generalize hs : a.device = s at h
  cases h with
  | basic h =>
    obtain ⟨p, k, below, hp, rfl, rfl, rfl, ha⟩ := device_running hs
    cases hp
    rw [length_liftStack] at h
    rw [ha, ← List.map_append]
    exact ⟨_, .single (.basic h), .between ⟨_, _, a.log, (_, _) :: below⟩⟩
  | clear =>
    obtain ⟨p, k, below, hp, rfl, rfl, rfl, ha⟩ := device_running hs
    cases hp
    rw [ha]
    exact ⟨_, .refl, .taking⟩
  | take free =>
    obtain ⟨p, _, _, hp, _⟩ := device_running hs
    cases hp
  | put =>
    obtain ⟨p, _, _, hp, _⟩ := device_running hs
    cases hp
  | finish =>
    obtain ⟨p, _, _, hp, _⟩ := device_running hs
    cases hp
  | release =>
    obtain ⟨p, _, _, hp, _⟩ := device_running hs
    cases hp
  | interrupt h =>
    obtain ⟨flag, holder, log, stack⟩ := a
    cases hs
    exact ⟨_, .single (.interrupt h), .between ⟨false, holder, log, ([_], true) :: stack⟩⟩
  | «return» =>
    obtain ⟨context, below, hstack, rfl, ha⟩ := device_returning hs
    rw [ha, hstack]
    exact ⟨_, .single .return, .between ⟨_, _, a.log, context :: below⟩⟩

theorem Step.simulated {s s' : Device L A} {a : Atomic L A} (h : Step handlers s s')
    (hm : Matches s a) :
    ∃ a', Relation.ReflTransGen (AtomicStep handlers) a a' ∧ Matches s' a' := by
  cases hm with
  | between => exact h.simulated_between
  | @taking flag holder log l text k saved below =>
    cases h with
    | take free =>
      have hout : spoken log = Function.update (spoken log) l (spoken log l ++ []) := by
        rw [List.append_nil, Function.update_eq_self]
      rw [length_liftStack]
      exact ⟨_, .refl, .putting free hout rfl⟩
  | @putting flag holder log l out text written rest k saved below free hout htext =>
    cases h with
    | @put _ _ _ _ unit rest =>
      refine ⟨_, .refl, .putting free ?_ (htext.trans (List.append_cons written unit rest))⟩
      rw [hout, Function.update_self, Function.update_idem, List.append_assoc]
    | finish =>
      rw [List.append_nil] at htext
      exact ⟨_, .refl, .releasing free (htext ▸ hout)⟩
  | @releasing flag holder log l out text k saved below free hout =>
    cases h with
    | release =>
      have hfree : Function.update (Function.update holder l (some below.length)) l none = holder := by
        rw [Function.update_idem, ← free, Function.update_eq_self]
      rw [hfree]
      exact ⟨_, .single (.print free), .restoring (hout.trans (spoken_concat log l text).symm)⟩
  | @restoring flag holder log out k saved below hout =>
    cases h with
    | basic h =>
      cases h
      subst hout
      exact ⟨_, .refl, .between ⟨flag, holder, log, (k, saved) :: below⟩⟩

theorem device_start (program : Prog L A) :
    (Atomic.start program).device = Device.start program := rfl

/-- The refinement: every state of the devices stands for a state that the atomic
machine reaches. -/
theorem Reachable.simulated {s : Device L A} (h : Reachable program handlers s) :
    ∃ a, AtomicReachable program handlers a ∧ Matches s a := by
  induction h with
  | refl => exact ⟨Atomic.start program, .refl, device_start program ▸ .between _⟩
  | tail _ hstep ih =>
    obtain ⟨a, ha, hm⟩ := ih
    obtain ⟨a', hrun, hm'⟩ := hstep.simulated hm
    exact ⟨a', ha.trans hrun, hm'⟩

/-- The running context is about to print this text. -/
def Atomic.Prints (a : Atomic L A) (l : L) (text : List A) : Prop :=
  ∃ k saved below, a.stack = (.print l text :: k, saved) :: below

/-- What a device has been given are whole texts and the beginning of the one
that the running context is printing, if it has the lock. -/
theorem Matches.log_eq {s : Device L A} {a : Atomic L A} (hm : Matches s a) (l : L) :
    ∃ written rest, s.log l = spoken a.log l ++ written ∧
      (s.holder l = none ∨ s.flag = true → written = []) ∧
      (written ≠ [] → a.Prints l (written ++ rest)) := by
  have hwhole : s.log l = spoken a.log l → ∃ written rest, s.log l = spoken a.log l ++ written ∧
      (s.holder l = none ∨ s.flag = true → written = []) ∧
      (written ≠ [] → a.Prints l (written ++ rest)) := by
    intro h
    exact ⟨[], [], by rw [h, List.append_nil], fun _ => rfl, fun hne => absurd rfl hne⟩
  cases hm with
  | between => exact hwhole rfl
  | taking => exact hwhole rfl
  | @putting flag holder log l' out text written rest k saved below free hout htext =>
    by_cases hl : l = l'
    · subst hl hout htext
      refine ⟨written, rest, Function.update_self .., ?_, fun _ => ⟨k, saved, below, rfl⟩⟩
      simp
    · exact hwhole (by rw [hout]; exact Function.update_of_ne hl ..)
  | @releasing flag holder log l' out text k saved below free hout =>
    by_cases hl : l = l'
    · subst hl hout
      refine ⟨text, [], Function.update_self .., ?_, fun _ => ⟨k, saved, below, by simp⟩⟩
      simp
    · exact hwhole (by rw [hout]; exact Function.update_of_ne hl ..)
  | restoring hout => exact hwhole (congrFun hout l)

section
variable {holder : Holders L} {log : L → List A} {l : L} {k : List (Instr L A)} {saved : Bool}
  {below : List (List (Instr L A) × Bool)} {s' : Device L A}

theorem step_taking_iff {text : List A} (free : holder l = none) :
    Step handlers ⟨false, holder, log, (.taking l text :: k, saved) :: below⟩ s' ↔
      s' = ⟨false, Function.update holder l (some below.length), log,
        (.putting l text :: .releasing l :: k, saved) :: below⟩ := by
  constructor
  · intro h
    cases h with
    | take => rfl
  · rintro rfl
    exact .take free

theorem step_putting_cons_iff {a : A} {rest : List A} :
    Step handlers ⟨false, holder, log, (.putting l (a :: rest) :: k, saved) :: below⟩ s' ↔
      s' = ⟨false, holder, Function.update log l (log l ++ [a]),
        (.putting l rest :: k, saved) :: below⟩ := by
  constructor
  · intro h
    cases h with
    | put => rfl
  · rintro rfl
    exact .put

theorem step_putting_nil_iff :
    Step handlers ⟨false, holder, log, (.putting l [] :: k, saved) :: below⟩ s' ↔
      s' = ⟨false, holder, log, (k, saved) :: below⟩ := by
  constructor
  · intro h
    cases h with
    | finish => rfl
  · rintro rfl
    exact .finish

theorem step_releasing_iff :
    Step handlers ⟨false, holder, log, (.releasing l :: k, saved) :: below⟩ s' ↔
      s' = ⟨false, Function.update holder l none, log, (k, saved) :: below⟩ := by
  constructor
  · intro h
    cases h with
    | release => rfl
  · rintro rfl
    exact .release

theorem step_restoring_iff {flag : Bool} :
    Step handlers ⟨false, holder, log, (.prog (.setFlag flag) :: k, saved) :: below⟩ s' ↔
      s' = ⟨flag, holder, log, (k, saved) :: below⟩ := by
  constructor
  · intro h
    cases h with
    | basic h =>
      cases h
      rfl
  · rintro rfl
    exact .basic .setFlag

end

/-- The states that this many steps lead to. -/
def After (handlers : Set (Prog L A)) : ℕ → Device L A → Device L A → Prop
  | 0, s, s' => s' = s
  | n + 1, s, s' => ∃ m, Step handlers s m ∧ After handlers n m s'

theorem After.steps {n : ℕ} {s s' : Device L A} (h : After handlers n s s') :
    Relation.ReflTransGen (Step handlers) s s' := by
  induction n generalizing s with
  | zero => exact h ▸ .refl
  | succ n ih =>
    obtain ⟨m, hstep, hrest⟩ := h
    exact .head hstep (ih hrest)

theorem after_succ_iff {s m s' : Device L A} {n : ℕ} (h : ∀ {m'}, Step handlers s m' ↔ m' = m) :
    After handlers (n + 1) s s' ↔ After handlers n m s' := by
  simp only [After, h, exists_eq_left]

/-- Once it has the lock, a print goes on to its end, and nothing comes between. -/
theorem after_putting_iff {holder : Holders L} {log : L → List A} {l : L} {rest : List A}
    {flag : Bool} {k : List (Instr L A)} {saved : Bool} {below : List (List (Instr L A) × Bool)}
    {s' : Device L A} :
    After handlers (rest.length + 3)
        ⟨false, holder, log,
          (.putting l rest :: .releasing l :: .prog (.setFlag flag) :: k, saved) :: below⟩ s' ↔
      s' = ⟨flag, Function.update holder l none, Function.update log l (log l ++ rest),
        (k, saved) :: below⟩ := by
  induction rest generalizing log with
  | nil =>
    rw [List.length_nil, after_succ_iff step_putting_nil_iff, after_succ_iff step_releasing_iff,
      after_succ_iff step_restoring_iff, List.append_nil, Function.update_eq_self]
    rfl
  | cons a rest ih =>
    rw [List.length_cons, Nat.add_right_comm, after_succ_iff step_putting_cons_iff, ih,
      Function.update_self, Function.update_idem, List.append_assoc]
    rfl

theorem after_taking_iff {holder : Holders L} {log : L → List A} {l : L} {text : List A}
    {flag : Bool} {k : List (Instr L A)} {saved : Bool} {below : List (List (Instr L A) × Bool)}
    {s' : Device L A} (free : holder l = none) :
    After handlers (text.length + 4)
        ⟨false, holder, log, (.taking l text :: .prog (.setFlag flag) :: k, saved) :: below⟩ s' ↔
      s' = ⟨flag, holder, Function.update log l (log l ++ text), (k, saved) :: below⟩ := by
  rw [after_succ_iff (step_taking_iff free), after_putting_iff, Function.update_idem, ← free,
    Function.update_eq_self]

theorem print_steps {flag : Bool} {holder : Holders L} {log : L → List A} {l : L} {text : List A}
    {k : List (Instr L A)} {saved : Bool} {below : List (List (Instr L A) × Bool)}
    (free : holder l = none) :
    Relation.ReflTransGen (Step handlers)
      ⟨flag, holder, log, (.prog (.print l text) :: k, saved) :: below⟩
      ⟨flag, holder, Function.update log l (log l ++ text), (k, saved) :: below⟩ :=
  .head .clear ((after_taking_iff free).2 rfl).steps

/-- What the atomic machine does in one step, the devices can do. -/
theorem AtomicStep.realized {a a' : Atomic L A} (h : AtomicStep handlers a a') :
    Relation.ReflTransGen (Step handlers) a.device a'.device := by
  cases h with
  | @basic flag flag' holder holder' log p ps k saved below h =>
    rw [← length_liftStack] at h
    have hstep : Step handlers
        ⟨flag, holder, spoken log, (.prog p :: k.map .prog, saved) :: liftStack below⟩ _ := .basic h
    rw [← List.map_append] at hstep
    exact .single hstep
  | @print flag holder log l text k saved below free =>
    rw [Atomic.device, Atomic.device, spoken_concat]
    exact print_steps free
  | interrupt h => exact .single (.interrupt h)
  | «return» => exact .single .return

theorem AtomicReachable.realized {a : Atomic L A} (h : AtomicReachable program handlers a) :
    Reachable program handlers a.device := by
  induction h with
  | refl => exact device_start program ▸ .refl
  | tail _ hstep ih => exact ih.trans hstep.realized

/-! ## Reports of a context that comes on top -/

def reports (messages : List (L × List A)) (last : Prog L A) : Prog L A :=
  messages.foldr (fun m p => .seq (.print m.1 m.2) p) last

theorem append_spoken_cons (log : L → List A) (m : L × List A) (messages : List (L × List A)) :
    (fun l => log l ++ spoken (m :: messages) l) =
      fun l => Function.update log m.1 (log m.1 ++ m.2) l ++ spoken messages l := by
  funext l
  by_cases h : l = m.1
  · subst h
    simp [spoken]
  · have hne : ¬ m.1 = l := fun he => h he.symm
    simp [spoken, h, hne]

theorem eq_or_steps {s m s' : Device L A} (hnext : ∀ {m'}, Step handlers s m' ↔ m' = m)
    (h : Relation.ReflTransGen (Step handlers) s s') :
    s' = s ∨ Relation.ReflTransGen (Step handlers) m s' := by
  rcases h.cases_head with rfl | ⟨m', hstep, hrest⟩
  · exact .inl rfl
  · obtain rfl := hnext.1 hstep
    exact .inr hrest

section
variable {holder : Holders L} {log : L → List A} {l l' : L} {k : List (Instr L A)} {saved : Bool}
  {below : List (List (Instr L A) × Bool)} {s' : Device L A}

theorem step_clear_iff {text : List A} :
    Step handlers ⟨false, holder, log, (.prog (.print l text) :: k, saved) :: below⟩ s' ↔
      s' = ⟨false, holder, log,
        (.taking l text :: .prog (.setFlag false) :: k, saved) :: below⟩ := by
  constructor
  · intro h
    cases h with
    | basic h => cases h
    | clear => rfl
  · rintro rfl
    exact .clear

theorem step_seq_iff {first second : Prog L A} :
    Step handlers ⟨false, holder, log, (.prog (.seq first second) :: k, saved) :: below⟩ s' ↔
      s' = ⟨false, holder, log, (.prog first :: .prog second :: k, saved) :: below⟩ := by
  constructor
  · intro h
    cases h with
    | basic h =>
      cases h
      rfl
  · rintro rfl
    exact .basic .seq

theorem putting_frame (hl : l' ≠ l) {rest : List A}
    (h : Relation.ReflTransGen (Step handlers)
      ⟨false, holder, log,
        (.putting l rest :: .releasing l :: .prog (.setFlag false) :: k, saved) :: below⟩ s') :
    s'.log l' = log l' ∨ Relation.ReflTransGen (Step handlers)
      ⟨false, Function.update holder l none, Function.update log l (log l ++ rest),
        (k, saved) :: below⟩ s' := by
  induction rest generalizing log with
  | nil =>
    rw [List.append_nil, Function.update_eq_self]
    rcases eq_or_steps step_putting_nil_iff h with rfl | h
    · exact .inl rfl
    rcases eq_or_steps step_releasing_iff h with rfl | h
    · exact .inl rfl
    rcases eq_or_steps step_restoring_iff h with rfl | h
    · exact .inl rfl
    exact .inr h
  | cons a rest ih =>
    rcases eq_or_steps step_putting_cons_iff h with rfl | h
    · exact .inl rfl
    have hrest := ih h
    rwa [Function.update_of_ne hl, Function.update_self, Function.update_idem, List.append_assoc]
      at hrest

/-- On its way a print leaves the other devices alone. -/
theorem print_frame (free : holder l = none) (hl : l' ≠ l) {text : List A}
    (h : Relation.ReflTransGen (Step handlers)
      ⟨false, holder, log, (.prog (.print l text) :: k, saved) :: below⟩ s') :
    s'.log l' = log l' ∨ Relation.ReflTransGen (Step handlers)
      ⟨false, holder, Function.update log l (log l ++ text), (k, saved) :: below⟩ s' := by
  rcases eq_or_steps step_clear_iff h with rfl | h
  · exact .inl rfl
  rcases eq_or_steps (step_taking_iff free) h with rfl | h
  · exact .inl rfl
  have hrest := putting_frame hl h
  rwa [Function.update_idem, ← free, Function.update_eq_self] at hrest

/-- A print whose lock is held by a context below spins for ever. -/
theorem print_spins (held : holder l ≠ none) {text : List A}
    (h : Relation.ReflTransGen (Step handlers)
      ⟨false, holder, log, (.prog (.print l text) :: k, saved) :: below⟩ s') : s'.log = log := by
  rcases eq_or_steps step_clear_iff h with rfl | h
  · rfl
  rcases h.cases_head with rfl | ⟨m, hstep, _⟩
  · rfl
  · cases hstep with
    | take free => exact absurd free held

theorem reports_blocked {messages : List (L × List A)} {last : Prog L A}
    (held : ∃ m ∈ messages, holder m.1 ≠ none)
    (h : Relation.ReflTransGen (Step handlers)
      ⟨false, holder, log, ([.prog (reports messages last)], saved) :: below⟩ s') :
    ∃ m ∈ messages, holder m.1 ≠ none ∧ s'.log m.1 = log m.1 := by
  induction messages generalizing log with
  | nil =>
    obtain ⟨m, hm, _⟩ := held
    cases hm
  | cons m messages ih =>
    have hstays : s'.log = log →
        ∃ m' ∈ m :: messages, holder m'.1 ≠ none ∧ s'.log m'.1 = log m'.1 := by
      intro hlog
      obtain ⟨m', hm', hheld⟩ := held
      exact ⟨m', hm', hheld, by rw [hlog]⟩
    rcases eq_or_steps step_seq_iff h with rfl | h
    · exact hstays rfl
    by_cases hfree : holder m.1 = none
    · -- the message goes out, and one of the later ones is blocked
      obtain ⟨m', hm', hheld⟩ := held
      have hrest : m' ∈ messages := by
        rcases List.mem_cons.1 hm' with rfl | hrest
        · exact absurd hfree hheld
        · exact hrest
      have hother : ∀ {n : L × List A}, holder n.1 ≠ none → n.1 ≠ m.1 := by
        intro n hn heq
        exact hn (heq ▸ hfree)
      rcases print_frame hfree (hother hheld) h with hlog | h
      · exact ⟨m', hm', hheld, hlog⟩
      · obtain ⟨n, hn, hnheld, hlog⟩ := ih ⟨m', hrest, hheld⟩ h
        rw [Function.update_of_ne (hother hnheld)] at hlog
        exact ⟨n, List.mem_cons_of_mem _ hn, hnheld, hlog⟩
    · exact hstays (print_spins hfree h)

theorem reports_steps {messages : List (L × List A)} {last : Prog L A}
    (free : ∀ m ∈ messages, holder m.1 = none) :
    Relation.ReflTransGen (Step handlers)
      ⟨false, holder, log, (.prog (reports messages last) :: k, saved) :: below⟩
      ⟨false, holder, fun l => log l ++ spoken messages l, (.prog last :: k, saved) :: below⟩ := by
  induction messages generalizing log with
  | nil =>
    simp only [spoken, List.filter_nil, List.flatMap_nil, List.append_nil]
    exact .refl
  | cons m messages ih =>
    refine .head (.basic .seq) ((print_steps (free m List.mem_cons_self)).trans ?_)
    rw [append_spoken_cons]
    exact ih (fun m' hm' => free m' (List.mem_cons_of_mem _ hm'))

/-- A handler that comes on top with interrupts off gives its whole report if and
only if no context below holds one of the locks. -/
theorem reports_given_iff {messages : List (L × List A)} {last : Prog L A}
    (hne : ∀ m ∈ messages, m.2 ≠ []) :
    (∃ s', Relation.ReflTransGen (Step handlers)
        ⟨false, holder, log, ([.prog (reports messages last)], saved) :: below⟩ s' ∧
      ∀ l, s'.log l = log l ++ spoken messages l) ↔
    ∀ m ∈ messages, holder m.1 = none := by
  constructor
  · rintro ⟨s', hrun, hlog⟩
    by_contra hheld
    push Not at hheld
    obtain ⟨m, hm, _, heq⟩ := reports_blocked hheld hrun
    have hempty : spoken messages m.1 = [] := List.append_right_eq_self.1 ((hlog m.1).symm.trans heq)
    refine hne m hm (List.flatMap_eq_nil_iff.1 hempty m (List.mem_filter.2 ⟨hm, ?_⟩))
    exact decide_eq_true rfl
  · intro free
    exact ⟨_, reports_steps free, fun l => rfl⟩

end

/-! ## The table of the handlers

An exception does not ask for the flag, but the processor finds its handler in a
table, and without the table the machine is reset. -/

/-- The step that loads the table. -/
def Device.Loads (s s' : Device L A) : Prop :=
  ∃ k saved below, s.stack = (.prog .loadTable :: k, saved) :: below ∧
    s'.stack = (k, saved) :: below

/-- The states of a run, with whether the table has been loaded on the way. -/
inductive Reaches (program : Prog L A) (handlers : Set (Prog L A)) : Bool → Device L A → Prop where
  | start : Reaches program handlers false (Device.start program)
  | load {table : Bool} {s s' : Device L A} (h : Reaches program handlers table s)
      (step : Step handlers s s') (loads : s.Loads s') : Reaches program handlers true s'
  | other {table : Bool} {s s' : Device L A} (h : Reaches program handlers table s)
      (step : Step handlers s s') (loads : ¬ s.Loads s') : Reaches program handlers table s'

theorem Reaches.reachable {table : Bool} {s : Device L A} (h : Reaches program handlers table s) :
    Reachable program handlers s := by
  induction h with
  | start => exact .refl
  | load _ step _ ih => exact ih.tail step
  | other _ step _ ih => exact ih.tail step

theorem Reachable.reaches {s : Device L A} (h : Reachable program handlers s) :
    ∃ table, Reaches program handlers table s := by
  induction h with
  | refl => exact ⟨false, .start⟩
  | @tail s s' _ step ih =>
    obtain ⟨table, h⟩ := ih
    by_cases loads : s.Loads s'
    · exact ⟨true, h.load step loads⟩
    · exact ⟨table, h.other step loads⟩

/-- The start of an exception handler on top of the running context, with the flag
cleared; a machine that is reset has no next state. -/
def Device.raise (table : Bool) (handler : Prog L A) (s : Device L A) : Option (Device L A) :=
  if table then some ⟨false, s.holder, s.log, ([.prog handler], s.flag) :: s.stack⟩ else none

theorem raise_given_iff {table : Bool} {s : Device L A} {messages : List (L × List A)}
    {last : Prog L A} (hne : ∀ m ∈ messages, m.2 ≠ []) :
    (∃ t s', s.raise table (reports messages last) = some t ∧
      Relation.ReflTransGen (Step handlers) t s' ∧
      ∀ l, s'.log l = s.log l ++ spoken messages l) ↔
    table = true ∧ ∀ m ∈ messages, s.holder m.1 = none := by
  constructor
  · rintro ⟨t, s', hraise, hrun, hlog⟩
    simp only [Device.raise, Option.ite_none_right_eq_some, Option.some.injEq] at hraise
    obtain ⟨htable, rfl⟩ := hraise
    exact ⟨htable, (reports_given_iff hne).1 ⟨s', hrun, hlog⟩⟩
  · rintro ⟨rfl, hfree⟩
    obtain ⟨s', hrun, hlog⟩ := (reports_given_iff hne).2 hfree
    exact ⟨_, s', rfl, hrun, hlog⟩

/-- Run with interrupts off, the program loads the table before it turns them on,
or comes to its end with them off; `rest` is what has to hold there. -/
def Prog.LoadsBefore : Prog L A → Prop → Prop
  | .skip, rest => rest
  | .halt, _ => True
  | .lock _, rest => rest
  | .unlock _, rest => rest
  | .setFlag flag, rest => flag = false ∧ rest
  | .loadTable, _ => True
  | .withoutInterrupts body, rest => body.LoadsBefore rest
  | .seq first second, rest => first.LoadsBefore (second.LoadsBefore rest)
  | .choice left right, rest => left.LoadsBefore rest ∧ right.LoadsBefore rest
  | .loop body, rest => body.LoadsBefore True ∧ rest
  | .print _ _, rest => rest

def codeLoadsBefore : List (Instr L A) → Prop
  | [] => False
  | .prog p :: k => p.LoadsBefore (codeLoadsBefore k)
  | _ :: k => codeLoadsBefore k

omit [DecidableEq L] in
theorem Prog.LoadsBefore.mono {p : Prog L A} {rest rest' : Prop} (h : p.LoadsBefore rest)
    (hrest : rest → rest') : p.LoadsBefore rest' := by
  induction p generalizing rest rest' with
  | skip => exact hrest h
  | halt => trivial
  | lock => exact hrest h
  | unlock => exact hrest h
  | setFlag => exact ⟨h.1, hrest h.2⟩
  | loadTable => trivial
  | withoutInterrupts body ih => exact ih h hrest
  | seq first second ihfirst ihsecond => exact ihfirst h (fun h => ihsecond h hrest)
  | choice left right ihleft ihright => exact ⟨ihleft h.1 hrest, ihright h.2 hrest⟩
  | loop body => exact ⟨h.1, hrest h.2⟩
  | print => exact hrest h

structure Device.Waits (s : Device L A) : Prop where
  flag : s.flag = false
  code : ∃ k saved, s.stack = [(k, saved)] ∧ codeLoadsBefore k

theorem Basic.waits {depth : ℕ} {flag' : Bool} {holder holder' : Holders L} {p : Prog L A}
    {ps : List (Prog L A)} {k : List (Instr L A)}
    (h : Basic depth false holder p flag' holder' ps) (hp : p ≠ .loadTable)
    (hk : codeLoadsBefore (.prog p :: k)) :
    flag' = false ∧ codeLoadsBefore (ps.map .prog ++ k) := by
  cases h with
  | skip => exact ⟨rfl, hk⟩
  | halt => exact ⟨rfl, hk⟩
  | lock free => exact ⟨rfl, hk⟩
  | unlock => exact ⟨rfl, hk⟩
  | setFlag => exact hk
  | loadTable => exact absurd rfl hp
  | withoutInterrupts => exact ⟨rfl, Prog.LoadsBefore.mono hk (fun h => ⟨rfl, h⟩)⟩
  | seq => exact ⟨rfl, hk⟩
  | left => exact ⟨rfl, hk.1⟩
  | right => exact ⟨rfl, hk.2⟩
  | again => exact ⟨rfl, hk.1.mono (fun _ => hk)⟩
  | done => exact ⟨rfl, hk.2⟩

theorem Step.waits {s s' : Device L A} (h : Step handlers s s') (hs : s.Waits)
    (hloads : ¬ s.Loads s') : s'.Waits := by
  obtain ⟨hflag, k, saved, hstack, hk⟩ := hs
  cases h with
  | @basic flag flag' holder holder' log p ps k' saved' below h =>
    cases hflag
    cases hstack
    have hp : p ≠ .loadTable := by
      rintro rfl
      cases h
      exact hloads ⟨_, _, _, rfl, rfl⟩
    obtain ⟨hflag', hcode⟩ := h.waits hp hk
    exact ⟨hflag', _, _, rfl, hcode⟩
  | clear =>
    cases hflag
    cases hstack
    exact ⟨rfl, _, _, rfl, rfl, hk⟩
  | take free =>
    cases hstack
    exact ⟨hflag, _, _, rfl, hk⟩
  | put =>
    cases hstack
    exact ⟨hflag, _, _, rfl, hk⟩
  | finish =>
    cases hstack
    exact ⟨hflag, _, _, rfl, hk⟩
  | release =>
    cases hstack
    exact ⟨hflag, _, _, rfl, hk⟩
  | interrupt h => cases hflag
  | «return» => cases hstack

/-- No interrupt comes before the table is there. -/
theorem Reaches.table_of_flag {table : Bool} {s : Device L A} (hp : program.LoadsBefore False)
    (h : Reaches program handlers table s) (hflag : s.flag = true) : table = true := by
  have hwaits : table = false → s.Waits := by
    clear hflag
    induction h with
    | start => exact fun _ => ⟨rfl, _, _, rfl, hp⟩
    | load => exact fun htable => by cases htable
    | other _ step loads ih => exact fun htable => step.waits (ih htable) loads
  cases table with
  | true => rfl
  | false => exact (hwaits rfl).flag.symm.trans hflag

/-! ## Locks that only prints take -/

def Prog.Spares (l : L) : Prog L A → Prop
  | .lock l' => l' ≠ l
  | .withoutInterrupts body => body.Spares l
  | .seq first second => first.Spares l ∧ second.Spares l
  | .choice left right => left.Spares l ∧ right.Spares l
  | .loop body => body.Spares l
  | _ => True

theorem Basic.spares {depth : ℕ} {flag flag' : Bool} {holder holder' : Holders L} {p : Prog L A}
    {ps : List (Prog L A)} {l : L} (h : Basic depth flag holder p flag' holder' ps)
    (hp : p.Spares l) (hfree : holder l = none) :
    holder' l = none ∧ ∀ q ∈ ps, q.Spares l := by
  cases h with
  | lock free =>
    refine ⟨?_, fun q hq => by cases hq⟩
    rw [Function.update_of_ne (Ne.symm hp), hfree]
  | @unlock l' =>
    refine ⟨?_, fun q hq => by cases hq⟩
    by_cases hl : l = l'
    · rw [hl, Function.update_self]
    · rw [Function.update_of_ne hl, hfree]
  | _ => simp_all [Prog.Spares]

structure Atomic.Spares (l : L) (a : Atomic L A) : Prop where
  free : a.holder l = none
  code : ∀ c ∈ a.stack, ∀ p ∈ c.1, p.Spares l

theorem AtomicStep.spares {a a' : Atomic L A} {l : L} (hh : ∀ handler ∈ handlers, handler.Spares l)
    (h : AtomicStep handlers a a') (ha : a.Spares l) : a'.Spares l := by
  obtain ⟨hfree, hcode⟩ := ha
  cases h with
  | basic h =>
    simp only [List.forall_mem_cons] at hcode
    obtain ⟨hfree', hps⟩ := h.spares hcode.1.1 hfree
    refine ⟨hfree', ?_⟩
    simp only [List.forall_mem_cons, List.forall_mem_append]
    exact ⟨⟨hps, hcode.1.2⟩, hcode.2⟩
  | print free =>
    simp only [List.forall_mem_cons] at hcode
    refine ⟨hfree, ?_⟩
    simp only [List.forall_mem_cons]
    exact ⟨hcode.1.2, hcode.2⟩
  | interrupt h =>
    refine ⟨hfree, ?_⟩
    simp only [List.forall_mem_cons]
    exact ⟨⟨hh _ h, fun p hp => by cases hp⟩, hcode⟩
  | «return» =>
    simp only [List.forall_mem_cons] at hcode
    refine ⟨hfree, ?_⟩
    simp only [List.forall_mem_cons]
    exact hcode.2

theorem AtomicReachable.spares {a : Atomic L A} {l : L} (hp : program.Spares l)
    (hh : ∀ handler ∈ handlers, handler.Spares l) (h : AtomicReachable program handlers a) :
    a.Spares l := by
  induction h with
  | refl =>
    refine ⟨rfl, ?_⟩
    simp only [Atomic.start, List.forall_mem_cons]
    exact ⟨⟨hp, fun p hp => by cases hp⟩, fun c hc => by cases hc⟩
  | tail _ hstep ih => exact hstep.spares hh ih

/-- The running context has the lock of its print. -/
def Device.Printing (s : Device L A) (l : L) : Prop :=
  ∃ i k saved below, s.stack = (i :: k, saved) :: below ∧
    ((∃ rest, i = .putting l rest) ∨ i = .releasing l)

theorem Matches.free_iff {s : Device L A} {a : Atomic L A} {l : L} (hm : Matches s a)
    (hfree : a.holder l = none) : s.holder l = none ↔ ¬ s.Printing l := by
  cases hm with
  | between =>
    refine iff_of_true hfree ?_
    rintro ⟨i, k, saved, below, hstack, hi⟩
    obtain ⟨p, _, _, rfl, _⟩ := device_running (a := a) (congrArg (State.mk _ _ _) hstack)
    simp at hi
  | taking =>
    refine iff_of_true hfree ?_
    rintro ⟨i, k, saved, below, hstack, hi⟩
    cases hstack
    simp at hi
  | @putting flag holder log l' out text written rest k saved below free hout htext =>
    by_cases hl : l = l'
    · subst hl
      refine iff_of_false (by simp) (not_not_intro ?_)
      exact ⟨_, _, _, _, rfl, .inl ⟨rest, rfl⟩⟩
    · refine iff_of_true ((Function.update_of_ne hl ..).trans hfree) ?_
      rintro ⟨i, k, saved, below, hstack, hi⟩
      cases hstack
      simp [Ne.symm hl] at hi
  | @releasing flag holder log l' out text k saved below free hout =>
    by_cases hl : l = l'
    · subst hl
      refine iff_of_false (by simp) (not_not_intro ?_)
      exact ⟨_, _, _, _, rfl, .inr rfl⟩
    · refine iff_of_true ((Function.update_of_ne hl ..).trans hfree) ?_
      rintro ⟨i, k, saved, below, hstack, hi⟩
      cases hstack
      simp [Ne.symm hl] at hi
  | restoring =>
    refine iff_of_true hfree ?_
    rintro ⟨i, k, saved, below, hstack, hi⟩
    cases hstack
    simp at hi

/-- A lock that no program takes by itself is held while a print goes on, and at
no other time. -/
theorem Reachable.free_iff {s : Device L A} {l : L} (hp : program.Spares l)
    (hh : ∀ handler ∈ handlers, handler.Spares l) (h : Reachable program handlers s) :
    s.holder l = none ↔ ¬ s.Printing l := by
  obtain ⟨a, ha, hm⟩ := h.simulated
  exact hm.free_iff (ha.spares hp hh).free

/-! ## The locks alone -/

def Prog.locking : Prog L A → Cmd L
  | .skip => .skip
  | .halt => .halt
  | .lock l => .lock l
  | .unlock l => .unlock l
  | .setFlag flag => .setFlag flag
  | .loadTable => .skip
  | .withoutInterrupts body => .withoutInterrupts body.locking
  | .seq first second => .seq first.locking second.locking
  | .choice left right => .choice left.locking right.locking
  | .loop body => .loop body.locking
  | .print l _ => .withoutInterrupts (.seq (.lock l) (.seq .skip (.unlock l)))

def Instr.locking : Instr L A → Cmd L
  | .prog p => p.locking
  | .taking l _ => .seq (.lock l) (.seq .skip (.unlock l))
  | .putting _ _ => .skip
  | .releasing l => .unlock l

def lockingContext (c : List (Instr L A) × Bool) : Context L := ⟨c.1.map Instr.locking, c.2⟩

def Device.locking (s : Device L A) : InterruptLocks.State L :=
  ⟨s.flag, s.holder, s.stack.map lockingContext⟩

theorem Basic.locking {depth : ℕ} {flag flag' : Bool} {holder holder' : Holders L} {p : Prog L A}
    {ps : List (Prog L A)} (h : Basic depth flag holder p flag' holder' ps) (k : List (Cmd L)) :
    Exec depth flag holder (p.locking :: k) flag' holder' (ps.map Prog.locking ++ k) := by
  cases h with
  | skip => exact .skip
  | halt => exact .halt
  | lock free => exact .lock free
  | unlock => exact .unlock
  | setFlag => exact .setFlag
  | loadTable => exact .skip
  | withoutInterrupts => exact .withoutInterrupts
  | seq => exact .seq
  | left => exact .left
  | right => exact .right
  | again => exact .again
  | done => exact .done

/-- Putting out a unit is not seen by the locks, taking a lock is three steps. -/
theorem Step.locking {s s' : Device L A} (h : Step handlers s s') :
    Relation.ReflTransGen (InterruptLocks.Step (Prog.locking '' handlers)) s.locking s'.locking := by
  cases h with
  | @basic flag flag' holder holder' log p ps k saved below h =>
    have hexec := h.locking (k.map Instr.locking)
    have hcode : ps.map Prog.locking ++ k.map Instr.locking =
        (ps.map Instr.prog ++ k).map Instr.locking := by
      rw [List.map_append, List.map_map]
      rfl
    rw [← List.length_map lockingContext, hcode] at hexec
    exact .single (.exec hexec)
  | clear => exact .single (.exec .withoutInterrupts)
  | @take flag holder log l text k saved below free =>
    have hlock : Exec (below.map lockingContext).length flag holder
        (.lock l :: .seq .skip (.unlock l) :: k.map Instr.locking) flag
        (Function.update holder l (some below.length))
        (.seq .skip (.unlock l) :: k.map Instr.locking) := by
      rw [List.length_map]
      exact .lock free
    exact .head (.exec .seq) (.head (.exec hlock) (.single (.exec .seq)))
  | put => exact .refl
  | finish => exact .single (.exec .skip)
  | release => exact .single (.exec .unlock)
  | interrupt h => exact .single (.interrupt (Set.mem_image_of_mem _ h))
  | «return» => exact .single .return

theorem Reachable.locking {s : Device L A} (h : Reachable program handlers s) :
    InterruptLocks.Reachable program.locking (Prog.locking '' handlers) s.locking := by
  induction h with
  | refl => exact .refl
  | tail _ hstep ih => exact ih.trans hstep.locking

/-- Where the locks are checked, a print that is about to take its lock finds it
free. -/
theorem Reachable.free_of_taking [Fintype L] {shared : Finset L}
    (hc : Checked shared program.locking (Prog.locking '' handlers)) {s : Device L A}
    (h : Reachable program handlers s) {l : L} {text : List A} {k : List (Instr L A)} {saved : Bool}
    {below : List (List (Instr L A) × Bool)}
    (hs : s.stack = (.taking l text :: k, saved) :: below) : s.holder l = none := by
  obtain ⟨flag, holder, log, stack⟩ := s
  dsimp only at hs
  subst hs
  -- one step further, the lock is in front
  have hreach : InterruptLocks.Reachable program.locking (Prog.locking '' handlers)
      ⟨flag, holder, ⟨.lock l :: .seq .skip (.unlock l) :: k.map Instr.locking, saved⟩ ::
        below.map lockingContext⟩ := h.locking.tail (.exec .seq)
  exact hreach.free_of_attempts hc ⟨_, _, _, rfl⟩

end LlmOs.AtomicPrint
