import TuyulNet.Server.System

namespace TuyulNet.Server

open Framework

/-- The client descriptor that `start` keeps in a local variable while it may
be outside the epoll set. -/
def Pc.loose : Pc → Option Fd
  | .getFl fd (.client _) | .setFl fd _ (.client _) | .addClient fd _ | .reject fd _
  | .closeClient fd _ => some fd
  | _ => none

/-- The client descriptor that `start` is working on. -/
def Pc.client : Pc → Option Fd
  | .read fd _ | .deliver fd _ _ | .delClient fd _ => some fd
  | pc => pc.loose

/-- Returned events that are not dealt with, the current one included. -/
def Pc.pending : Pc → List Fd
  | .batch fds => fds
  | .getFl _ (.client rest) | .setFl _ _ (.client rest) | .accept rest | .addClient _ rest
  | .reject _ rest => rest
  | .read fd rest | .deliver fd _ rest | .delClient fd rest | .closeClient fd rest => fd::rest
  | _ => []

/-- Every descriptor that `start` remembers outside its fields. -/
def Pc.mentions : Pc → List Fd
  | .getFl fd (.client rest) | .setFl fd _ (.client rest) | .addClient fd rest
  | .reject fd rest => fd::rest
  | pc => pc.pending

/-- Before `is_running = true`. -/
def Pc.setup : Pc → Bool
  | .socket | .setsockopt | .getFl _ .setup | .setFl _ _ .setup | .bind | .listen
  | .epollCreate | .epollAdd | .setRunning => true
  | _ => false

/-- Before `epoll_create1`. -/
def Pc.bare : Pc → Bool
  | .socket | .setsockopt | .getFl _ .setup | .setFl _ _ .setup | .bind | .listen
  | .epollCreate => true
  | _ => false

/-- After the listening socket was put into the epoll set, before the exit. -/
def Pc.armed : Pc → Bool
  | .setRunning | .allocate | .loopHead | .epollWait | .waiting _ | .batch _ | .accept _
  | .getFl _ (.client _) | .setFl _ _ (.client _) | .addClient _ _ | .reject _ _ | .read _ _
  | .deliver _ _ _ | .delClient _ _ | .closeClient _ _ => true
  | _ => false

/-- After `listen`, before the exit. -/
def Pc.listens : Pc → Bool
  | .epollCreate | .epollAdd => true
  | pc => pc.armed

/-- `cleanup` has closed the descriptor and not yet reset the field. -/
def Pc.staleEpoll : Pc → Bool
  | .cleanup .clearEpoll _ => true
  | _ => false

def Pc.staleServer : Pc → Bool
  | .cleanup .clearServer _ => true
  | _ => false

def File.master : File → Bool
  | .sock _ | .listener _ => true
  | _ => false

/-- Which descriptors the run owns and where it remembers them, at every
program point of a run in which `stop()` is well placed. `table` are the open
files, `watch` the interest sets by epoll descriptor. -/
structure Shape (i : Impl) (pc : Pc) (table : Fd → Option File)
    (watch : Fd → Fd → Option Trigger) : Prop where
  nonneg : ∀ fd f,table fd=some f → 0≤fd
  fields : (i.serverFd=-1 ∨ 0 ≤ i.serverFd) ∧ (i.epollFd=-1 ∨ 0 ≤ i.epollFd)
  serverOnly : ∀ fd f,table fd=some f → File.master f=true →
    fd=i.serverFd ∧ pc.staleServer=false
  server : i.serverFd≠-1 → pc.staleServer=false →
    ∃ f,table i.serverFd=some f ∧ File.master f=true
  listener : pc.listens=true → i.serverFd≠-1 → ∃ f,table i.serverFd=some (.listener f)
  epollOnly : ∀ fd,table fd=some .epoll → fd=i.epollFd ∧ pc.staleEpoll=false
  epoll : i.epollFd≠-1 → pc.staleEpoll=false → table i.epollFd=some .epoll
  registered : ∀ p fd t,watch p fd=some t →
    (t=.level ∧ fd=i.serverFd ∧ ∃ f,table fd=some (.listener f)) ∨
    (t=.edge ∧ ∃ c f,table fd=some (.conn c f) ∧ nonblocking f=true)
  armed : pc.armed=true → i.serverFd≠-1 → i.epollFd≠-1 → watch i.epollFd i.serverFd=some .level
  clients : i.epollFd≠-1 → pc.staleEpoll=false → ∀ fd c f,table fd=some (.conn c f) →
    pc.loose=some fd ∨ watch i.epollFd fd=some .edge
  client : ∀ fd,pc.client=some fd → ∃ c f,table fd=some (.conn c f)
  adding : ∀ fd rest,pc=.addClient fd rest →
    ∃ c f,table fd=some (.conn c f) ∧ nonblocking f=true
  master : ∀ fd flags,pc=.getFl fd .setup ∨ pc=.setFl fd flags .setup → fd=i.serverFd
  pending : ∀ fd∈pc.pending,fd=i.serverFd ∨ ∃ c f,table fd=some (.conn c f)
  distinct : pc.mentions.Nodup
  idle : pc.setup=true → i.isRunning=false
  unopened : (pc=.socket → i.serverFd=-1) ∧ (pc.bare=true → i.epollFd=-1)
  early : pc.setup=true → ∀ fd c f,table fd≠some (.conn c f)
  unwatched : pc.setup=true → pc≠.setRunning → ∀ p fd,watch p fd=none

section shape

attribute [local grind =] Pc.staleServer Pc.staleEpoll Pc.loose Pc.client Pc.pending Pc.armed
  Pc.listens Pc.setup Pc.bare Pc.mentions
attribute [local grind] File.master

variable {i : Impl} {pc : Pc} {T T' : Fd → Option File} {W W' : Fd → Fd → Option Trigger}

/-- Going on to a point that remembers no more than the last one. -/
theorem Shape.goto {q : Pc} (h : Shape i pc T W) (hT : ∀ x,T' x=T x) (hW : ∀ p x,W' p x=W p x)
    (stale : q.staleServer=pc.staleServer ∧ q.staleEpoll=pc.staleEpoll)
    (phase : (q.armed=true → pc.armed=true) ∧ (q.listens=true → pc.listens=true) ∧
      (q.setup=true → pc.setup=true ∧ pc≠.setRunning) ∧ (q.bare=true → pc.bare=true) ∧ q≠.socket)
    (loose : ∀ fd,pc.loose=some fd → q.loose=some fd)
    (client : ∀ fd,q.client=some fd → pc.client=some fd ∨ fd∈pc.pending ∧ fd≠i.serverFd)
    (adding : ∀ fd rest,q≠.addClient fd rest)
    (master : ∀ fd flags,q=.getFl fd .setup ∨ q=.setFl fd flags .setup → fd=i.serverFd)
    (mentions : q.mentions.Sublist pc.mentions ∧ ∀ fd∈q.pending,fd∈pc.pending) :
    Shape i q T' W' := by
  have hT : T'=T := funext hT
  have hW : W'=W := funext fun p => funext (hW p)
  subst hT hW
  cases h
  constructor <;> first | assumption | grind -ring -linarith

/-- The two descriptors in the fields are of different kinds. -/
theorem Shape.apart (h : Shape i pc T W) (fresh : pc.staleServer=false ∧ pc.staleEpoll=false)
    (hs : i.serverFd≠-1) (he : i.epollFd≠-1) : i.serverFd≠i.epollFd := by
  intro e
  obtain ⟨f,hf,hm⟩ := h.server hs fresh.1
  rw [e,h.epoll he fresh.2] at hf
  cases hf
  cases hm

theorem Shape.openServer (h : Shape i .socket T W) (n : Fd) (hn : 0≤n ∧ T n=none)
    (hT : ∀ x,T' x=if x=n then some (.sock 0) else T x) (hW : ∀ p x,W' p x=W p x) :
    Shape { i with serverFd := n } .setsockopt T' W' := by
  have unset := h.unopened.1 rfl
  have first : ∀ x f,T x=some f → File.master f=false := by
    intro x f hx
    by_contra hm
    have own := (h.serverOnly x f hx (by simpa using hm)).1
    have nonneg := h.nonneg x f hx
    rw [own,unset] at nonneg
    exact absurd nonneg (by decide)
  cases h
  constructor <;> first | assumption | grind -ring -linarith

theorem Shape.noServer (h : Shape i .socket T W) (code : ErrorCode) :
    Shape { i with serverFd := -1 } (.returned code) T W := by
  cases h
  constructor <;> first | assumption | grind -ring -linarith

/-- `fcntl` changes the flags of a file and nothing else about it. -/
theorem Shape.blocking {fd : Fd} {flags : Nat} {c : Caller} {f : File} {q : Pc}
    (h : Shape i (.setFl fd flags c) T W) (hf : T fd=some f)
    (hT : ∀ x,T' x=if x=fd then some (f.withFlags (flags ||| oNonblock)) else T x)
    (hW : ∀ p x,W' p x=W p x)
    (hq : c=.setup ∧ q=.bind ∨ ∃ rest,c=.client rest ∧ q=.addClient fd rest) :
    Shape i q T' W' := by
  have set := nonblocking_set flags
  rcases hq with ⟨rfl,rfl⟩|⟨rest,rfl,rfl⟩
  · have master : File.master f=true := by
      have own := h.master fd flags (.inr rfl)
      have open' : i.serverFd≠-1 := by
        intro e
        have nonneg := h.nonneg fd f hf
        rw [own,e] at nonneg
        exact absurd nonneg (by decide)
      obtain ⟨g,hg,hm⟩ := h.server open' rfl
      rw [← own,hf] at hg
      cases hg
      exact hm
    cases f with
    | sock a =>
      simp only [File.withFlags] at hT
      cases h
      constructor <;> first | assumption | grind -ring -linarith
    | listener a =>
      simp only [File.withFlags] at hT
      cases h
      constructor <;> first | assumption | grind -ring -linarith
    | _ => cases master
  · obtain ⟨d,a,hd⟩ := h.client fd rfl
    cases hf.symm.trans hd
    simp only [File.withFlags] at hT
    cases h
    constructor <;> first | assumption | grind -ring -linarith

theorem Shape.listening (h : Shape i .listen T W) {f : Nat}
    (hf : T i.serverFd=some (.sock f) ∨ T i.serverFd=some (.listener f))
    (hT : ∀ x,T' x=if x=i.serverFd then some (.listener f) else T x)
    (hW : ∀ p x,W' p x=W p x) : Shape i .epollCreate T' W' := by
  cases h
  constructor <;> first | assumption | grind -ring -linarith

theorem Shape.openEpoll (h : Shape i .epollCreate T W) (n : Fd) (hn : 0≤n ∧ T n=none)
    (hT : ∀ x,T' x=if x=n then some .epoll else T x)
    (hW : ∀ p x,W' p x=if p=n then none else W p x) :
    Shape { i with epollFd := n } .epollAdd T' W' := by
  have unset := h.unopened.2 rfl
  have first : ∀ x,T x≠some .epoll := by
    intro x hx
    have own := (h.epollOnly x hx).1
    have nonneg := h.nonneg x .epoll hx
    rw [own,unset] at nonneg
    exact absurd nonneg (by decide)
  cases h
  constructor <;> first | assumption | grind -ring -linarith

theorem Shape.noEpoll (h : Shape i .epollCreate T W) (code : ErrorCode) :
    Shape { i with epollFd := -1 } (.cleanup .testEpoll code) T W := by
  cases h
  constructor <;> first | assumption | grind -ring -linarith

theorem Shape.arm (h : Shape i .epollAdd T W) (hs : i.serverFd≠-1)
    (hT : ∀ x,T' x=T x)
    (hW : ∀ p x,W' p x=if p=i.epollFd ∧ x=i.serverFd then some .level else W p x) :
    Shape i .setRunning T' W' := by
  have hT : T'=T := funext hT
  subst hT
  cases h
  constructor <;> first | assumption | grind -ring -linarith

theorem Shape.running (h : Shape i .setRunning T W) :
    Shape { i with isRunning := true } .allocate T W := by
  cases h
  constructor <;> first | assumption | grind -ring -linarith

theorem Shape.harvest {ep : Fd} {fds : List Fd} (h : Shape i (.waiting ep) T W)
    (hT : ∀ x,T' x=T x) (hW : ∀ p x,W' p x=W p x) (hn : fds.Nodup)
    (hr : ∀ fd∈fds,W ep fd≠none) : Shape i (.batch fds) T' W' := by
  have hT : T'=T := funext hT
  have hW : W'=W := funext fun p => funext (hW p)
  subst hT hW
  have named : ∀ fd∈fds,fd=i.serverFd ∨ ∃ c f,T' fd=some (.conn c f) := by
    intro fd hm
    obtain ⟨t,ht⟩ := Option.ne_none_iff_exists'.mp (hr fd hm)
    rcases h.registered ep fd t ht with ⟨-,hs,-⟩|⟨-,c,f,hc,-⟩
    · exact .inl hs
    · exact .inr ⟨c,f,hc⟩
  cases h
  constructor <;> first | assumption | grind -ring -linarith

theorem Shape.accepted {rest : List Fd} (h : Shape i (.accept rest) T W) (n : Fd) (c : ConnId)
    (hn : 0≤n ∧ T n=none) (hs : ∃ f,T i.serverFd=some (.listener f))
    (hT : ∀ x,T' x=if x=n then some (.conn c 0) else T x) (hW : ∀ p x,W' p x=W p x) :
    Shape i (.getFl n (.client rest)) T' W' := by
  have new : n∉rest := by
    intro hm
    obtain ⟨f,hf⟩ := hs
    rcases h.pending n hm with e|⟨d,a,hd⟩
    · rw [e,hf] at hn
      cases hn.2
    · rw [hd] at hn
      cases hn.2
  cases h
  constructor <;> first | assumption | grind -ring -linarith

theorem Shape.hook {fd : Fd} {rest : List Fd} (h : Shape i (.addClient fd rest) T W)
    (he : i.epollFd≠-1) (hT : ∀ x,T' x=T x)
    (hW : ∀ p x,W' p x=if p=i.epollFd ∧ x=fd then some .edge else W p x) :
    Shape i (.accept rest) T' W' := by
  have hT : T'=T := funext hT
  subst hT
  cases h
  constructor <;> first | assumption | grind -ring -linarith

theorem Shape.unhook {fd : Fd} {rest : List Fd} (h : Shape i (.delClient fd rest) T W)
    (hT : ∀ x,T' x=T x) (hW : ∀ p x,W' p x=if p=i.epollFd ∧ x=fd then none else W p x) :
    Shape i (.closeClient fd rest) T' W' := by
  have hT : T'=T := funext hT
  subst hT
  obtain ⟨c,f,hc⟩ := h.client fd rfl
  cases h
  constructor <;> first | assumption | grind -ring -linarith

theorem Shape.dropClient {fd : Fd} {rest : List Fd} {p q : Pc} (h : Shape i p T W)
    (hp : p=.reject fd rest ∧ q=.accept rest ∨ p=.closeClient fd rest ∧ q=.batch rest)
    (hT : ∀ x,T' x=if x=fd then none else T x)
    (hW : ∀ p x,W' p x=if x=fd then none else W p x) : Shape i q T' W' := by
  -- a client is neither the listening socket nor the epoll instance, and comes up once
  rcases hp with ⟨rfl,rfl⟩|⟨rfl,rfl⟩
  · obtain ⟨c,f,hc⟩ := h.client fd rfl
    have once : fd∉rest := (List.nodup_cons.mp h.distinct).1
    cases h
    constructor <;> first | assumption | grind -ring -linarith
  · obtain ⟨c,f,hc⟩ := h.client fd rfl
    have once : fd∉rest := (List.nodup_cons.mp h.distinct).1
    cases h
    constructor <;> first | assumption | grind -ring -linarith

theorem Shape.closeEpoll {code : ErrorCode} (h : Shape i (.cleanup .closeEpoll code) T W)
    (hT : ∀ x,T' x=if x=i.epollFd then none else T x)
    (hW : ∀ p x,W' p x=if x=i.epollFd then none else W p x) :
    Shape i (.cleanup .clearEpoll code) T' W' := by
  have apart := h.apart ⟨rfl,rfl⟩
  cases h
  constructor <;> first | assumption | grind -ring -linarith

theorem Shape.clearEpoll {code : ErrorCode} (h : Shape i (.cleanup .clearEpoll code) T W) :
    Shape { i with epollFd := -1 } (.cleanup .testServer code) T W := by
  cases h
  constructor <;> first | assumption | grind -ring -linarith

theorem Shape.closeServer {code : ErrorCode} (h : Shape i (.cleanup .closeServer code) T W)
    (hT : ∀ x,T' x=if x=i.serverFd then none else T x)
    (hW : ∀ p x,W' p x=if x=i.serverFd then none else W p x) :
    Shape i (.cleanup .clearServer code) T' W' := by
  have apart := h.apart ⟨rfl,rfl⟩
  cases h
  constructor <;> first | assumption | grind -ring -linarith

theorem Shape.clearServer {code : ErrorCode} (h : Shape i (.cleanup .clearServer code) T W) :
    Shape { i with serverFd := -1 } (.cleanup .finish code) T W := by
  cases h
  constructor <;> first | assumption | grind -ring -linarith

theorem Shape.finish {code : ErrorCode} (h : Shape i (.cleanup .finish code) T W) :
    Shape { i with isRunning := false } (.returned code) T W := by
  cases h
  constructor <;> first | assumption | grind -ring -linarith

/-- Descriptors of the rest of the process come and go. -/
theorem Shape.foreign (h : Shape i pc T W) (n : Fd) (f g : Option File)
    (hf : T n=f) (h0 : 0≤n) (hfg : f=none ∧ g=some .foreign ∨ f=some .foreign ∧ g=none)
    (hT : ∀ x,T' x=if x=n then g else T x)
    (hW : ∀ p x,W' p x=if g=none ∧ x=n then none else W p x) : Shape i pc T' W' := by
  have same (x : Fd) (a : File) (ha : a≠.foreign) : T' x=some a ↔ T x=some a := by
    rw [hT]
    split
    · rename_i hx
      rw [hx,hf]
      rcases hfg with ⟨rfl,rfl⟩|⟨rfl,rfl⟩ <;> simp [ha.symm]
    · rfl
  have master (a : File) (ha : File.master a=true) : a≠.foreign := by
    intro e
    rw [e] at ha
    cases ha
  have hW : W'=W := by
    funext p x
    rw [hW]
    split
    · rename_i hx
      -- nobody watches what is foreign
      by_contra ht
      obtain ⟨t,ht⟩ := Option.ne_none_iff_exists'.mp (Ne.symm ht)
      rcases hfg with ⟨-,rfl⟩|⟨rfl,-⟩
      · cases hx.1
      · rw [hx.2] at ht
        rcases h.registered p n t ht with ⟨-,-,a,ha⟩|⟨-,c,a,ha,-⟩ <;> simp [hf] at ha
    · rfl
  subst hW
  refine { h with
    nonneg := ?_,serverOnly := ?_,server := ?_,listener := ?_,epollOnly := ?_,epoll := ?_
    registered := ?_,clients := ?_,client := ?_,adding := ?_,pending := ?_,early := ?_ }
  · intro fd a ha
    rw [hT] at ha
    split at ha
    · rename_i hx
      exact hx ▸ h0
    · exact h.nonneg fd a ha
  · intro fd a ha hm
    exact h.serverOnly fd a ((same fd a (master a hm)).mp ha) hm
  · intro hs hp
    obtain ⟨a,ha,hm⟩ := h.server hs hp
    exact ⟨a,(same _ a (master a hm)).mpr ha,hm⟩
  · intro hp hs
    obtain ⟨a,ha⟩ := h.listener hp hs
    exact ⟨a,(same _ _ (by simp)).mpr ha⟩
  · exact fun fd ha => h.epollOnly fd ((same fd _ (by simp)).mp ha)
  · exact fun he hp => (same _ _ (by simp)).mpr (h.epoll he hp)
  · intro p fd t ht
    rcases h.registered p fd t ht with ⟨ht,hs,a,ha⟩|⟨ht,c,a,ha,hb⟩
    · exact .inl ⟨ht,hs,a,(same _ _ (by simp)).mpr ha⟩
    · exact .inr ⟨ht,c,a,(same _ _ (by simp)).mpr ha,hb⟩
  · exact fun he hp fd c a ha => h.clients he hp fd c a ((same fd _ (by simp)).mp ha)
  · intro fd hp
    obtain ⟨c,a,ha⟩ := h.client fd hp
    exact ⟨c,a,(same fd _ (by simp)).mpr ha⟩
  · intro fd rest hp
    obtain ⟨c,a,ha,hb⟩ := h.adding fd rest hp
    exact ⟨c,a,(same fd _ (by simp)).mpr ha,hb⟩
  · intro fd hp
    rcases h.pending fd hp with hs|⟨c,a,ha⟩
    · exact .inl hs
    · exact .inr ⟨c,a,(same fd _ (by simp)).mpr ha⟩
  · exact fun hp fd c a ha => h.early hp fd c a ((same fd _ (by simp)).mp ha)

/-- `stop()` where the reactor has no pending entry of the listening socket and
is not between a close and the reset of its field. -/
theorem Shape.stopped (h : Shape i pc T W) (hr : i.isRunning=true)
    (hs : i.serverFd∉pc.pending) (hp : pc.staleEpoll=false ∧ pc.staleServer=false)
    (hT : ∀ x,T' x=if x=i.epollFd ∨ x=i.serverFd then none else T x)
    (hW : ∀ p x,W' p x=if x=i.epollFd ∨ x=i.serverFd then none else W p x) :
    Shape { i with serverFd := -1,epollFd := -1,isRunning := false } pc T' W' := by
  -- what is left are the clients and the rest of the process
  have left : ∀ x f,T' x=some f → File.master f=false ∧ f≠.epoll := by
    intro x f hx
    rw [hT] at hx
    split at hx
    · cases hx
    · rename_i out
      constructor
      · by_contra hm
        exact out (.inr (h.serverOnly x f hx (by simpa using hm)).1)
      · rintro rfl
        exact out (.inl (h.epollOnly x hx).1)
  cases h
  constructor <;> first | assumption | grind -ring -linarith

end shape
end TuyulNet.Server
