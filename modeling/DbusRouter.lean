import DbusRouter.Lib.PMap
import DbusRouter.Lib.Run
import DbusRouter.Lib.Dialog
import DbusRouter.Wire.Decide
import DbusRouter.Model.Names
import DbusRouter.Model.Zvariant
import DbusRouter.Model.Config
import DbusRouter.Model.Message
import DbusRouter.Model.Rewrite
import DbusRouter.Model.Routing
import DbusRouter.Model.Session
import DbusRouter.Model.HostAuth
import DbusRouter.Proofs.Reply
import DbusRouter.Proofs.Crash
import DbusRouter.Proofs.Answers
import DbusRouter.Proofs.Auth
import DbusRouter.Proofs.Resume
import DbusRouter.Proofs.Drain
import DbusRouter.Proofs.Hostpass
import DbusRouter.Proofs.OwnerChanged
import DbusRouter.Proofs.Services
import DbusRouter.Proofs.Callers
import DbusRouter.Proofs.Readers
import DbusRouter.Proofs.Spliced
import DbusRouter.Proofs.Writer
import DbusRouter.Proofs.Requests
import DbusRouter.Proofs.Translated
import DbusRouter.Proofs.Grammar
import DbusRouter.Proofs.Relay
import DbusRouter.Proofs.HostAuth
import DbusRouter.Proofs.Life
import DbusRouter.Proofs.Exposure
import DbusRouter.Proofs.Exchange
import DbusRouter.Proofs.Routes
import DbusRouter.Proofs.Lockstep
import DbusRouter.Proofs.Delivery
import DbusRouter.Proofs.Subscription
import DbusRouter.Proofs.Address
import DbusRouter.Proofs.Followed
import DbusRouter.Proofs.Isolation
