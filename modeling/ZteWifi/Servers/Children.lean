import ZteWifi.Websh.Main
import ZteWifi.Wssh.Main

/-!
# The children of the servers

Both servers count their children at each fork, so their counters are exact in every run.
-/

open Ascii Net

namespace Servers

/-- `active_children` of both servers. -/
theorem active_children_exact :
    (∀ (es : List Event) (s : Server Websh.Fork), Run (Step Websh.server) .start es s →
      Supervised Websh.server es s) ∧
    ∀ (es : List Event) (s : Server Wssh.Fork), Run (Step Wssh.server) .start es s →
      Supervised Wssh.server es s :=
  ⟨fun _ _ h => supervised Websh.server_counts h, fun _ _ h => supervised Wssh.server_counts h⟩

/-- The header of a client that asks for the page. -/
def pageRequest : List Recv := [.data (bytes "GET / HTTP/1.0\r\n\r\n")]

/-- The child that serves the page has ended when the next client comes. -/
theorem active_children_exact_page : Supervised Websh.server
    [.accepted 0xC0A80002, .checked 0, .header, .forked 7, .exits 7, .accepted 0xC0A80003]
    ⟨.waitpid, 1, [⟨7, true⟩]⟩ := by
  have haccept : Step Websh.server .start (.accepted 0xC0A80002) ⟨.waitpid, 0, []⟩ :=
    .accepted 0xC0A80002 rfl
  have hcheck : Step Websh.server ⟨.waitpid, 0, []⟩ (.checked 0) ⟨.recv, 0, []⟩ :=
    .checked rfl (by simp)
  have hheader : Step Websh.server ⟨.recv, 0, []⟩ .header ⟨.fork .get, 0, []⟩ := by
    have hpc : Websh.server.afterHead (readHeaders (fun _ => false) pageRequest) = .fork .get := by
      decide +kernel
    rw [← hpc]
    exact .header (fun _ => false) pageRequest rfl
  have hfork : Step Websh.server ⟨.fork .get, 0, []⟩ (.forked 7) ⟨.accept, 1, [⟨7, false⟩]⟩ :=
    .forked (s := ⟨.fork Websh.Fork.get, 0, []⟩) 7 rfl (by decide)
  have hexit : Step Websh.server ⟨.accept, 1, [⟨7, false⟩]⟩ (.exits 7) ⟨.accept, 1, [⟨7, true⟩]⟩ :=
    .exits (s := ⟨.accept, 1, [⟨7, false⟩]⟩) (by decide)
  have hnext : Step Websh.server ⟨.accept, 1, [⟨7, true⟩]⟩ (.accepted 0xC0A80003)
      ⟨.waitpid, 1, [⟨7, true⟩]⟩ :=
    .accepted 0xC0A80003 rfl
  exact active_children_exact.1 _ _ (.cons haccept (.cons hcheck (.cons hheader (.cons hfork
    (.cons hexit (.single hnext))))))

end Servers
