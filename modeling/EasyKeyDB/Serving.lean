import EasyKeyDB.Handler
import EasyKeyDB.Library.Runs
import EasyKeyDB.Storage
import Mathlib.Data.Fintype.EquivFin

/-!
# Serving requests

Runs of the handler: any number of clients, each with its connection, and one
call of `parse_request` after the other, each on a connection whose unread
bytes begin with a complete request. How the requests got there, in which
chunks and how far ahead the client has sent, is left open.

`Serving.database` and `Serving.answers` reduce such a run to a history of the
database: the order of the calls and the outcomes of their appends decide the
database and every reply.
-/

namespace EasyKeyDB

open ByteBuffer Database

/-- The handler's database and the connection of every client. -/
structure World where
  database : Database
  sockets : Nat → ClientSocket Chunks

/-- One served request: who asked what, the outcome of the append if there was
one, and the calls made on the connection in return. -/
structure Exchange where
  client : Nat
  request : Request
  append : IoResult
  calls : List SocketCall

def Request.call (append : IoResult) : Request → Call
  | .read key => .read key.bytes
  | .write key value => .write ⟨key.bytes, value.bytes, append⟩

def Request.answer (db : Database) : Request → List SocketCall
  | .read key => readCalls db key.bytes
  | .write key _ => textCalls .ok (keyWritten key.bytes)

/-- One call of `parse_request`, after some more chunks have arrived. -/
inductive Served (w : World) : Exchange → World → Prop
  | call {client : Nat} {arrived : Chunks} {request : Request} {rest : List UInt8}
      {append : IoResult} {after : HandlerState Chunks} {calls : List SocketCall} :
      ((w.sockets client).deliver arrived).readBuffer.unread = request.encode ++ rest →
      parseRequest append ⟨w.database, (w.sockets client).deliver arrived⟩
        = .ok () after →
      after.socket.sent = (w.sockets client).sent ++ calls →
      Served w ⟨client, request, append, calls⟩
        ⟨after.database, Function.update w.sockets client after.socket⟩

abbrev Serving : World → List Exchange → World → Prop := Run Served

/-- A complete request is served: its call is made and its answer is sent. -/
theorem parseRequest_complete (append : IoResult) (db : Database)
    {socket : ClientSocket Chunks} {q : Request} {rest : List UInt8}
    (hcomplete : socket.readBuffer.unread = q.encode ++ rest) :
    ∃ b', b'.unread = rest ∧ b'.later = socket.readBuffer.later ∧
      parseRequest append ⟨db, socket⟩ =
        .ok () (replied (db.call (q.call append)) socket b' (q.answer db)) := by
  obtain ⟨b', hleft, hrun⟩ := parseRequest_run append db socket
  rw [hcomplete, parse_encode] at hleft hrun
  refine ⟨b', ?_⟩
  cases q with
  | read key => exact ⟨hleft.1, hleft.2, hrun⟩
  | write key value => exact ⟨hleft.1, hleft.2, hrun⟩

theorem Served.spec {w w' : World} {x : Exchange} (h : Served w x w') :
    w'.database = w.database.call (x.request.call x.append) ∧
      x.calls = x.request.answer w.database := by
  rcases h with ⟨hcomplete, hrun, hcalls⟩
  obtain ⟨b', -, -, hspec⟩ := parseRequest_complete _ w.database hcomplete
  obtain rfl := Throwing.end_unique hspec hrun
  exact ⟨rfl, (List.append_cancel_left hcalls).symm⟩

/-! ## A run is a history -/

def history (xs : List Exchange) : List Call := xs.map fun x => x.request.call x.append

@[simp] theorem history_append (xs ys : List Exchange) :
    history (xs ++ ys) = history xs ++ history ys :=
  List.map_append

section

variable {sockets : Nat → ClientSocket Chunks} {xs : List Exchange} {w : World}

theorem Serving.database (h : Serving ⟨Database.new, sockets⟩ xs w) :
    w.database = run (history xs) := by
  apply h.history (I := fun xs w => w.database = run (history xs)) rfl
  intro xs m x m' hdb hserved
  rw [hserved.spec.1, hdb, history_append]
  exact (run_append_singleton _ _).symm

theorem Serving.answers (h : Serving ⟨Database.new, sockets⟩ xs w)
    {pre post : List Exchange} {x : Exchange} (hsplit : xs = pre ++ x :: post) :
    x.calls = x.request.answer (run (history pre)) := by
  subst hsplit
  obtain ⟨m, m', hpre, hserved, -⟩ := h.split
  rw [hserved.spec.2, Serving.database hpre]

end

/-! ## Requests that can be served -/

def World.start : World where
  database := Database.new
  sockets := fun client => ClientSocket.new client 0 []

theorem unread_deliver {socket : ClientSocket Chunks} (q : Request)
    (hidle : socket.readBuffer = ⟨[], []⟩) :
    (socket.deliver [q.encode]).readBuffer.unread = q.encode ++ [] := by
  unfold ClientSocket.deliver unread
  rw [hidle]
  cases q <;> simp [Request.encode, arriving]

/-- Connections that take no part in a run are left alone by it. -/
theorem Serving.unused {w₀ w : World} {xs : List Exchange} (h : Serving w₀ xs w) :
    ∀ client, client ∉ xs.map Exchange.client → w.sockets client = w₀.sockets client := by
  induction h with
  | nil => exact fun _ _ => rfl
  | snoc _ hserved ih =>
      intro client hclient
      rw [List.map_append, List.mem_append, not_or] at hclient
      rw [← ih client hclient.1]
      rcases hserved with ⟨-, -, -⟩
      apply Function.update_of_ne
      rintro rfl
      exact hclient.2 (by simp)

/-- Whatever has been served, there is a client who can send any request
next. -/
theorem Serving.next {xs : List Exchange} {w : World} (h : Serving World.start xs w)
    (q : Request) (append : IoResult) :
    ∃ x w', Serving World.start (xs ++ [x]) w' ∧ x.request = q ∧ x.append = append := by
  obtain ⟨client, hclient⟩ := Infinite.exists_notMem_finset (xs.map Exchange.client).toFinset
  have hidle : (w.sockets client).readBuffer = ⟨[], []⟩ := by
    rw [h.unused client (by simpa using hclient)]
    rfl
  have hunread := unread_deliver q hidle
  obtain ⟨b', -, -, hrun⟩ := parseRequest_complete append w.database hunread
  exact ⟨_, _, h.snoc (.call hunread hrun rfl), rfl, rfl⟩

/-- Any requests can be served, with any outcomes of their appends. -/
theorem serving_exists (qs : List (Request × IoResult)) :
    ∃ xs w, Serving World.start xs w ∧ xs.map (fun x => (x.request, x.append)) = qs := by
  induction qs using List.reverseRecOn with
  | nil => exact ⟨[], World.start, .nil, rfl⟩
  | append_singleton qs q ih =>
      obtain ⟨xs, w, hrun, rfl⟩ := ih
      obtain ⟨x, w', hrun', hrequest, happend⟩ := hrun.next q.1 q.2
      refine ⟨xs ++ [x], w', hrun', ?_⟩
      rw [List.map_append, List.map_singleton, hrequest, happend]

def requests (xs : List Exchange) : List Request := xs.map Exchange.request

@[simp] theorem requests_append (xs ys : List Exchange) :
    requests (xs ++ ys) = requests xs ++ requests ys :=
  List.map_append

theorem requests_eq {xs : List Exchange} {qs : List (Request × IoResult)}
    (h : xs.map (fun x => (x.request, x.append)) = qs) :
    requests xs = qs.map Prod.fst := by
  subst h
  rw [requests, List.map_map]
  rfl

theorem history_eq {xs : List Exchange} {qs : List (Request × IoResult)}
    (h : xs.map (fun x => (x.request, x.append)) = qs) :
    history xs = qs.map fun q => q.1.call q.2 := by
  subst h
  rw [history, List.map_map]
  rfl

def keyA : Key := ⟨[97], by decide, by decide⟩

def keyB : Key := ⟨[98], by decide, by decide⟩

end EasyKeyDB
