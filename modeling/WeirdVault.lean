import WeirdVault.Agent.Badge
import WeirdVault.Agent.Fleet
import WeirdVault.Agent.OneLoop
import WeirdVault.Agent.Reconciled
import WeirdVault.Agent.Rotation
import WeirdVault.Agent.Undisturbed
import WeirdVault.Audit.ClientAddress
import WeirdVault.Audit.Closed
import WeirdVault.Audit.Retention
import WeirdVault.Audit.Skipped
import WeirdVault.Billing.Charged
import WeirdVault.Billing.Delivered
import WeirdVault.Devices.Revoked
import WeirdVault.Enrollment.OneMachine
import WeirdVault.Qr.RoundTrip
import WeirdVault.RateLimit.FixedWindow
import WeirdVault.Recording.Player
import WeirdVault.Recording.Registry
import WeirdVault.Recording.ShareLink
import WeirdVault.Recovery.AtMostOnce
import WeirdVault.Recovery.Codes
import WeirdVault.Relay.Chunked
import WeirdVault.Relay.CloseReason
import WeirdVault.Relay.Events
import WeirdVault.Relay.Purpose
import WeirdVault.Relay.Rendezvous
import WeirdVault.Relay.Replies
import WeirdVault.Relay.Reported
import WeirdVault.Relay.Ssrf
import WeirdVault.Shares.Deleted
import WeirdVault.Shares.Refused
import WeirdVault.Shares.Sweep
import WeirdVault.Shares.Views
import WeirdVault.Ssh.Attribution
import WeirdVault.Ssh.Imported
import WeirdVault.Ssh.Socket
import WeirdVault.Storage.Canonical
import WeirdVault.Storage.Pages
import WeirdVault.Transfers.Jammed
import WeirdVault.Transfers.Produced
import WeirdVault.Transfers.Pulled
import WeirdVault.Transfers.Worker
import WeirdVault.Vault.Announced
import WeirdVault.Vault.AutoSync
import WeirdVault.Vault.LocalWrites
import WeirdVault.Vault.MergeOrder
import WeirdVault.Vault.Mistyped
import WeirdVault.Vault.Remembered
import WeirdVault.Vault.Restored
